import ServerCore.ByteTable
import ServerCore.LighttpdBase64
import ServerCore.SixBitDigits
import Mathlib.Data.List.TakeWhile

/-!
# What the base64 decoder appends and accepts

The loop of the decoder takes the digits of the characters in front of the first one
that is neither in the alphabet nor skipped, and the digits write their octets and
spare bits from the terminating zero on. What is refused has overwritten the
terminating zero unless the first octet is zero.
-/

namespace ServerCore.LighttpdBase64Decoding

open LighttpdBuffer LighttpdBase64 SixBitDigits List Function

variable {b : Nat} {input : Bytes} {fresh : Nat → Byte}

def padding (charset : Base64Charset) : Byte := charset.char 64

/-- A character with a place in the alphabet, or one that is skipped. -/
def live (charset : Base64Charset) (c : Byte) : Bool :=
    c < 128 ∧ (0 ≤ charset.reverse c ∨ charset.reverse c = -2)

def digitChars (chars : Bytes) : Bytes := chars.filter fun c => 32 < c

section

variable (charset : Base64Charset)
include charset

def values (input : Bytes) : List Nat :=
  (digitChars (input.takeWhile (live charset))).map fun c => (charset.reverse c).toNat

def stops (group : Nat) : Bytes → Bool
  | [] => true
  | c :: _ => c = 0 ∨ c = padding charset ∧ 2 ≤ group

def Accepted (input : Bytes) : Prop :=
  stops charset ((values charset input).length % 4) (input.dropWhile (live charset)) ∧
    (values charset input).length % 4 ≠ 1 ∧ ∀ octet ∈ spare (values charset input), octet = 0

def Classified (c : Byte) : Prop :=
  (live charset c ∧ c ≠ 0 ∧ c < 128 ∧ c ≠ padding charset ∧
    ((32 < c ∧ 0 ≤ charset.reverse c ∧ charset.reverse c < 64 ∧ charset.char (charset.reverse c).toNat = c) ∨
      (¬ 32 < c ∧ charset.reverse c = -2))) ∨
  (¬ live charset c ∧ (c = 0 ∨ (c ≠ 0 ∧ ((128 ≤ c ∧ c ≠ padding charset) ∨
    (c < 128 ∧ charset.reverse c = -3 ∧ c = padding charset) ∨
    (c < 128 ∧ charset.reverse c = -1 ∧ c ≠ padding charset)))))

theorem table_codes : charset.table =
    (List.range' 65 26 ++ List.range' 97 26 ++ List.range' 48 10).map UInt8.ofNat ++
      match charset with
      | .standard => [43, 47, 61]
      | .url => [45, 95, 46] := by
  cases charset <;> decide

theorem classified (c : Byte) : Classified charset c := by
  unfold Classified live padding Base64Charset.char
  rw [table_codes]
  revert c
  cases charset <;> exact ByteTable.forall_byte (by decide)

end

theorem reverse_char {charset : Base64Charset} {index : Nat} (small : index < 64) :
    charset.reverse (charset.char index) = index ∧ live charset (charset.char index) ∧
    32 < charset.char index := by
  have every : ∀ digit : Fin 64, charset.reverse (charset.char digit.val) = digit.val ∧
      live charset (charset.char digit.val) ∧ 32 < charset.char digit.val := by
    unfold Base64Charset.char
    rw [table_codes]
    cases charset <;> decide
  exact every ⟨index, small⟩

section Digits

variable (charset : Base64Charset) (start reserve : Nat)

theorem first_octet {a : Nat} (small : b < 64) :
    UInt8.ofNat (a <<< 2) ||| UInt8.ofNat (b >>> 4) = UInt8.ofNat (4 * a + b / 16) := by
  have high : b >>> 4 = b / 16 := Nat.shiftRight_eq_div_pow b 4
  rw [high]
  exact joined_octet a (by omega)

theorem second_octet {c : Nat} (small : c < 64) :
    UInt8.ofNat ((b &&& 0x0f) <<< 4) ||| UInt8.ofNat (c >>> 2) = UInt8.ofNat (16 * (b % 16) + c / 4) := by
  have low : b &&& 0x0f = b % 16 := Nat.and_two_pow_sub_one_eq_mod b 4
  have high : c >>> 2 = c / 4 := Nat.shiftRight_eq_div_pow c 2
  rw [low, high]
  exact joined_octet (b % 16) (by omega)

theorem third_octet (c : Nat) {d : Nat} (small : d < 64) :
    UInt8.ofNat ((c &&& 0x03) <<< 6) ||| UInt8.ofNat d = UInt8.ofNat (64 * (c % 4) + d) := by
  have low : c &&& 0x03 = c % 4 := Nat.and_two_pow_sub_one_eq_mod c 2
  rw [low]
  exact joined_octet (c % 4) small

theorem first_spare (a : Nat) : UInt8.ofNat (a <<< 2) = UInt8.ofNat (4 * a) := by
  rw [Nat.shiftLeft_eq, Nat.mul_comm]

theorem second_spare (b : Nat) : UInt8.ofNat ((b &&& 0x0f) <<< 4) = UInt8.ofNat (16 * (b % 16)) := by
  have low : b &&& 0x0f = b % 16 := Nat.and_two_pow_sub_one_eq_mod b 4
  rw [low, Nat.shiftLeft_eq, Nat.mul_comm]

theorem third_spare (c : Nat) : UInt8.ofNat ((c &&& 0x03) <<< 6) = UInt8.ofNat (64 * (c % 4)) := by
  have low : c &&& 0x03 = c % 4 := Nat.and_two_pow_sub_one_eq_mod c 2
  rw [low, Nat.shiftLeft_eq, Nat.mul_comm]

theorem take_digits {digits : List Nat} (small : ∀ digit ∈ digits, digit < 64)
    (memory : Nat → Byte) (outPos : Nat)
    (room : outPos + (octets digits ++ spare digits).length ≤ reserve) :
    digits.foldlM (takeDigit start reserve) ⟨memory, outPos, 0⟩ =
      some ⟨fill memory (start + outPos) (octets digits ++ spare digits), outPos + (octets digits).length,
        digits.length % 4⟩ := by
  fun_induction octets digits generalizing memory outPos with
  | case1 a b c d digits ih =>
    simp only [forall_mem_cons] at small
    obtain ⟨_, smallB, smallC, smallD, small⟩ := small
    simp only [spare, cons_append, length_cons] at room
    have first : outPos < reserve := by omega
    have second : outPos + 1 < reserve := by omega
    have third : outPos + 1 + 1 < reserve := by omega
    simp only [foldlM_cons, takeDigit, Decoder.store, Decoder.orStore, guard, first, second, third, if_true,
      Option.pure_def, Option.bind_eq_bind, Option.bind_some, update_self, update_idem,
      first_octet smallB, second_octet smallC, third_octet c smallD]
    rw [ih small _ _ (by omega)]
    simp [spare, fill, Nat.add_assoc, Nat.add_comm 3]
  | case2 a b c =>
    simp only [forall_mem_cons] at small
    simp only [spare, length_append, length_cons, length_nil] at room
    have first : outPos < reserve := by omega
    have second : outPos + 1 < reserve := by omega
    have third : outPos + 1 + 1 < reserve := by omega
    simp only [foldlM_cons, takeDigit, Decoder.store, Decoder.orStore, guard, first, second, third, if_true,
      Option.pure_def, Option.bind_eq_bind, Option.bind_some, update_self, update_idem,
      first_octet small.2.1, second_octet small.2.2.1, third_spare]
    rfl
  | case3 a b =>
    simp only [forall_mem_cons] at small
    simp only [spare, length_append, length_cons, length_nil] at room
    have first : outPos < reserve := by omega
    have second : outPos + 1 < reserve := by omega
    simp only [foldlM_cons, takeDigit, Decoder.store, Decoder.orStore, guard, first, second, if_true,
      Option.pure_def, Option.bind_eq_bind, Option.bind_some, update_self, update_idem,
      first_octet small.2.1, second_spare]
    rfl
  | case4 a =>
    simp only [spare, length_append, length_cons, length_nil] at room
    have first : outPos < reserve := by omega
    simp only [foldlM_cons, takeDigit, Decoder.store, guard, first, if_true,
      Option.pure_def, Option.bind_eq_bind,
      Option.bind_some, first_spare]
    rfl
  | case5 => rfl

theorem group_ended_iff {digits : List Nat} {memory : Nat → Byte} :
    groupEnded start ⟨fill memory start (octets digits ++ spare digits),
      (octets digits).length, digits.length % 4⟩ ↔
      digits.length % 4 ≠ 1 ∧ ∀ octet ∈ spare digits, octet = 0 := by
  have size := spare_length digits
  by_cases whole : digits.length % 4 = 0
  · rw [if_pos whole] at size
    simp [groupEnded, whole, eq_nil_of_length_eq_zero size]
  · rw [if_neg whole] at size
    obtain ⟨last, isLast⟩ := length_eq_one_iff.mp size
    have read : fill memory start (octets digits ++ spare digits) (start + (octets digits).length) =
        last := by
      rw [fill_at _ (by simp [isLast])]
      simp [isLast]
    by_cases one : digits.length % 4 = 1
    · simp [groupEnded, one]
    · unfold groupEnded
      split
      · contradiction
      · contradiction
      · dsimp only
        rw [read, isLast]
        simp [one]

theorem digit_char {c : Byte} (mem : c ∈ digitChars (input.takeWhile (live charset))) :
    (live charset c ∧ 32 < c) ∧ (charset.reverse c).toNat < 64 ∧
    charset.char (charset.reverse c).toNat = c := by
  obtain ⟨taken, large⟩ := mem_filter.mp mem
  have isLive := mem_takeWhile_imp taken
  have above := of_decide_eq_true large
  rcases classified charset c with ⟨_, _, _, _, ⟨_, _, small, isChar⟩ | ⟨skipped, _⟩⟩ | ⟨dead, _⟩
  · exact ⟨⟨isLive, above⟩, by omega, isChar⟩
  · exact absurd above skipped
  · exact absurd isLive dead

theorem values_small (input : Bytes) : ∀ digit ∈ values charset input, digit < 64 := by
  intro digit mem
  obtain ⟨c, inText, rfl⟩ := mem_map.mp mem
  exact (digit_char charset inText).2.1

theorem chars_of_values (input : Bytes) :
    (values charset input).map charset.char = digitChars (input.takeWhile (live charset)) := by
  rw [values, map_map]
  exact (map_congr_left fun c mem => (digit_char charset mem).2.2).trans (map_id _)

theorem values_length_le (input : Bytes) : (values charset input).length ≤ input.length := by
  rw [values, length_map]
  exact (length_filter_le _ _).trans (takeWhile_sublist _).length_le

theorem loop_eq (input : Bytes) (d : Decoder) : decodeLoop charset start reserve input d =
    ((values charset input).foldlM (takeDigit start reserve) d).map fun d =>
      (d, stops charset d.group (input.dropWhile (live charset))) := by
  induction input generalizing d with
  | nil => rfl
  | cons c input ih =>
    unfold values digitChars at ih ⊢
    rcases classified charset c with
      ⟨isLive, nonzero, ascii, _, ⟨large, nonneg, _⟩ | ⟨small, skipped⟩⟩ | ⟨dead, kinds⟩
    · have apart : charset.reverse c ≠ -3 ∧ charset.reverse c ≠ -2 := by omega
      rw [decodeLoop, if_neg nonzero, if_neg (UInt8.not_le.mpr ascii)]
      simp only [apart, if_false, Int.not_lt.mpr nonneg]
      rw [takeWhile_cons_of_pos isLive, dropWhile_cons_of_pos isLive, filter_cons_of_pos (by simpa),
        map_cons, foldlM_cons]
      cases takeDigit start reserve d (charset.reverse c).toNat with
      | none => rfl
      | some d => exact ih d
    · rw [decodeLoop, if_neg nonzero, if_neg (UInt8.not_le.mpr ascii)]
      simp only [skipped, if_true]
      rw [takeWhile_cons_of_pos isLive, dropWhile_cons_of_pos isLive,
        filter_cons_of_neg (by simpa using small)]
      exact ih d
    · rw [takeWhile_cons_of_neg dead, dropWhile_cons_of_neg dead]
      rcases kinds with zero | ⟨nonzero, ⟨high, apart⟩ | ⟨low, marked, isPad⟩ | ⟨low, invalid, apart⟩⟩
      · simp [decodeLoop, stops, zero]
      · simp [decodeLoop, stops, nonzero, high, apart]
      · simp [decodeLoop, stops, nonzero, UInt8.not_le.mpr low, marked, ← isPad]
      · simp [decodeLoop, stops, nonzero, invalid, apart]

end Digits

section Calls

variable (fresh : Nat → Byte) (charset : Base64Charset) (input : Bytes)

theorem decode_eq (out : Buffer) :
    let b := bufferStringPrepareAppend fresh out (3 * (input.length / 4) + 3)
    let written := octets (values charset input) ++ spare (values charset input)
    let c : Buffer := { b with ptr := fill b.ptr (b.used - 1) written }
    bufferAppendBase64Decode fresh charset input out =
      if stops charset ((values charset input).length % 4)
        (input.dropWhile (live charset)) && groupEnded (b.used - 1)
          ⟨c.ptr, (octets (values charset input)).length, (values charset input).length % 4⟩ then
        (bufferCommit c (octets (values charset input)).length).bind fun appended => some (appended, true)
      else some (c, false) := by
  intro b written c
  have digits := take_digits (b.used - 1) (3 * (input.length / 4) + 3)
    (values_small charset input) b.ptr 0 (by
      have := values_length_le charset input
      have := octets_length (values charset input)
      have := spare_length (values charset input)
      rw [length_append]
      split_ifs at this <;> omega)
  rw [Nat.add_zero, Nat.zero_add] at digits
  simp only [bufferAppendBase64Decode, loop_eq]
  rw [digits]
  rfl

variable {out : Buffer} (sound : Sound out)

include sound

theorem decode_accepted (accepted : Accepted charset input) :
    ∃ appended, bufferAppendBase64Decode fresh charset input out = some (appended, true) ∧
      appended.text = out.text ++ octets (values charset input) ∧ Sound appended := by
  have decoded := decode_eq fresh charset input out
  obtain ⟨used, text, _, room⟩ := prepare_append_spec fresh sound (3 * (input.length / 4) + 3)
  generalize bufferStringPrepareAppend fresh out (3 * (input.length / 4) + 3) = b at decoded used text room
  obtain ⟨stopped, full, clean⟩ := accepted
  have size := octets_length (values charset input)
  have fewer := values_length_le charset input
  obtain ⟨appended, committed, isText, isSound⟩ :=
    commit_fill (octets (values charset input)) (spare (values charset input)) used (by omega)
  refine ⟨appended, ?_, text ▸ isText, isSound⟩
  rw [decoded]
  rw [stopped, (group_ended_iff (b.used - 1)).mpr ⟨full, clean⟩, Bool.and_self, if_pos rfl,
    committed]
  rfl

/-- The first octet, in part or in full, is in the place of the terminating zero. -/
theorem decode_refused (refused : ¬ Accepted charset input) :
    ∃ kept, bufferAppendBase64Decode fresh charset input out = some (kept, false) ∧ 0 < kept.used ∧
      kept.text = out.text ∧
      kept.ptr (kept.used - 1) =
      (octets (values charset input) ++ spare (values charset input)).headD 0 := by
  have decoded := decode_eq fresh charset input out
  obtain ⟨used, text, ended, _⟩ := prepare_append_spec fresh sound (3 * (input.length / 4) + 3)
  generalize bufferStringPrepareAppend fresh out (3 * (input.length / 4) + 3) = b at decoded used text ended
  have failed : ¬ (stops charset ((values charset input).length % 4) (input.dropWhile (live charset)) &&
      groupEnded (b.used - 1)
        ⟨fill b.ptr (b.used - 1) (octets (values charset input) ++ spare (values charset input)),
        (octets (values charset input)).length, (values charset input).length % 4⟩) = true := by
    rw [Bool.and_eq_true, group_ended_iff]
    exact refused
  refine ⟨_, decoded.trans (if_neg failed), used, ?_, ?_⟩
  · rw [← text]
    exact map_congr_left fun index mem => fill_before _ (mem_range.mp mem)
  · cases octets (values charset input) ++ spare (values charset input) with
    | nil => exact ended
    | cons octet octets => exact fill_at (octet :: octets) (Nat.zero_lt_succ _)

end Calls

/-- The characters of the longest front of alphabet and skipped characters that are not skipped:
none, or `A` and then, if there is a second one, one of `A` to `P`. -/
def StartsWithZeroOctet (charset : Base64Charset) (input : Bytes) : Prop :=
  let chars := digitChars (input.takeWhile (live charset))
  (∀ c ∈ chars[0]?, c = 'A'.toUInt8) ∧ ∀ c ∈ chars[1]?, 'A'.toUInt8 ≤ c ∧ c ≤ 'P'.toUInt8

theorem reverse_zero {charset : Base64Charset} (c : Byte) (isLive : live charset c) (large : 32 < c) :
    ((charset.reverse c).toNat = 0 ↔ c = 'A'.toUInt8) ∧
      ((charset.reverse c).toNat < 16 ↔ 'A'.toUInt8 ≤ c ∧ c ≤ 'P'.toUInt8) := by
  revert c
  cases charset <;> exact ByteTable.forall_byte (by decide)

theorem first_octet_eq (digits : List Nat) :
    (octets digits ++ spare digits).headD 0 = UInt8.ofNat (4 * digits.headD 0 + digits.getD 1 0 / 16) := by
  match digits with
  | [a] => simp [octets, spare]
  | [] | [_, _] | [_, _, _] | _ :: _ :: _ :: _ :: _ => rfl

theorem starts_with_zero_iff (charset : Base64Charset) (input : Bytes) :
    (octets (values charset input) ++ spare (values charset input)).headD 0 = 0 ↔
    StartsWithZeroOctet charset input := by
  have small := values_small charset input
  have each : ∀ c ∈ digitChars (input.takeWhile (live charset)), live charset c ∧ 32 < c :=
    fun c mem => (digit_char charset mem).1
  have zero_iff : ∀ value < 256, UInt8.ofNat value = 0 ↔ value = 0 :=
    fun value bound => ⟨eq_zero_of_octet bound, fun zero => zero ▸ rfl⟩
  rw [first_octet_eq]
  unfold StartsWithZeroOctet values at *
  generalize digitChars (input.takeWhile (live charset)) = chars at *
  match chars with
  | [] => simp
  | [a] =>
    have letter := (reverse_zero a (each a (by simp)).1 (each a (by simp)).2).1
    have bound := small _ (mem_map_of_mem (mem_cons_self (a := a)))
    simp only [map_cons, map_nil, headD_cons, getD_cons_succ, getD_nil] at bound ⊢
    rw [zero_iff _ (by omega)]
    simp only [getElem?_cons_zero, getElem?_cons_succ, getElem?_nil, Option.mem_def, Option.some.injEq,
      forall_eq', ← letter, reduceCtorEq, false_imp_iff, implies_true, and_true]
    omega
  | a :: b :: chars =>
    have letter := (reverse_zero a (each a (by simp)).1 (each a (by simp)).2).1
    have second := (reverse_zero b (each b (by simp)).1 (each b (by simp)).2).2
    have bound := small _ (mem_map_of_mem (mem_cons_self (a := a)))
    have boundB := small _ (mem_map_of_mem (mem_cons_of_mem a (mem_cons_self (a := b))))
    simp only [map_cons, headD_cons, getD_cons_succ, getD_cons_zero] at bound boundB ⊢
    rw [zero_iff _ (by omega)]
    simp only [getElem?_cons_zero, getElem?_cons_succ, Option.mem_def, Option.some.injEq, forall_eq',
      ← letter, ← second]
    omega

/-- A failed call leaves the text, but not always the zero that ends it. -/
theorem failed_decode_keeps_iff (fresh : Nat → Byte) (charset : Base64Charset)
    (input : Bytes) {out kept : Buffer}
    (sound : Sound out) (failed : bufferAppendBase64Decode fresh charset input out = some (kept, false)) :
    (0 < kept.used ∧ kept.text = out.text ∧ kept.ptr (kept.used - 1) = 0) ↔
    StartsWithZeroOctet charset input := by
  have refused : ¬ Accepted charset input := by
    intro accepted
    obtain ⟨appended, decoded, _⟩ := decode_accepted fresh charset input sound accepted
    rw [decoded] at failed
    cases failed
  obtain ⟨result, decoded, used, text, first⟩ := decode_refused fresh charset input sound refused
  rw [decoded] at failed
  cases failed
  rw [first, starts_with_zero_iff]
  exact ⟨fun holds => holds.2.2, fun zero => ⟨used, text, zero⟩⟩

/-- A buffer with the string `ab`. -/
def someBuffer : Buffer := ⟨fun index => [97, 98].getD index 0, 3, 64⟩

theorem refused_over_nothing : ∃ kept, bufferAppendBase64Decode (fun _ => 7) .standard
    [65, 33] someBuffer = some (kept, false) ∧
    0 < kept.used ∧ kept.text = someBuffer.text ∧ kept.ptr (kept.used - 1) = 0 :=
  ⟨_, rfl, (failed_decode_keeps_iff (fun _ => 7) .standard [65, 33] ⟨by decide, by decide⟩ rfl).mpr
    ⟨fun _ isFirst => (Option.some.inj isFirst).symm, nofun⟩⟩

theorem refused_overwrites_terminator : Sound someBuffer ∧ ∃ kept,
    bufferAppendBase64Decode (fun _ => 7) .standard [90, 33] someBuffer = some (kept, false) ∧
      kept.ptr (kept.used - 1) = 100 :=
  ⟨⟨by decide, by decide⟩, _, rfl, by decide⟩

section Encoding

variable (charset : Base64Charset) (bytes : Bytes)

theorem packed (high shift : Nat) {low : Nat} (small : low < 256) :
    high <<< (8 + shift) ||| low <<< shift = 2 ^ shift * (256 * high + low) := by
  have joined := Nat.shiftLeft_add_eq_or_of_lt (i := 8) small high
  rw [Nat.shiftLeft_add, ← Nat.shiftLeft_or_distrib, ← joined, Nat.shiftLeft_eq,
    Nat.shiftLeft_eq, Nat.mul_comm,
    Nat.mul_comm high]

theorem encode_tuples_eq : encodeTuples charset bytes = (digits bytes).map charset.char := by
  have index : ∀ value, value &&& 0x3f = value % 64 := fun value => Nat.and_two_pow_sub_one_eq_mod value 6
  have shifted : ∀ value, value >>> 6 = value / 64 := fun value => Nat.shiftRight_eq_div_pow value 6
  fun_induction encodeTuples charset bytes with
  | case1 x y z bytes v ih =>
    have := x.toNat_lt
    have := y.toNat_lt
    have := z.toNat_lt
    have value : v = 2 ^ 8 * (256 * x.toNat + y.toNat) + z.toNat := by
      rw [Nat.two_pow_add_eq_or_of_lt z.toNat_lt, ← packed x.toNat 8 y.toNat_lt]
    simp only [digits, map_cons, ih, index, shifted, List.cons.injEq, and_true]
    refine ⟨congrArg _ ?_, congrArg _ ?_, congrArg _ ?_, congrArg _ ?_⟩ <;> omega
  | case2 x y v =>
    have := x.toNat_lt
    have := y.toNat_lt
    have value : v = 4 * (256 * x.toNat + y.toNat) := packed x.toNat 2 y.toNat_lt
    simp only [digits, map_cons, map_nil, index, shifted, List.cons.injEq, and_true]
    refine ⟨congrArg _ ?_, congrArg _ ?_, congrArg _ ?_⟩ <;> omega
  | case3 x v =>
    have := x.toNat_lt
    simp only [digits, map_cons, map_nil, index, shifted, List.cons.injEq, and_true]
    refine ⟨congrArg _ ?_, congrArg _ ?_⟩ <;> omega
  | case4 => rfl

theorem encode_tuples_length : (encodeTuples charset bytes).length = (4 * bytes.length + 2) / 3 := by
  rw [encode_tuples_eq, length_map, digits_length]

theorem no_padding_eq (outLength : Nat) (room : (4 * bytes.length + 2) / 3 ≤ outLength) :
    liToBase64NoPadding charset outLength bytes = some (encodeTuples charset bytes) := by
  have enough : 4 * (bytes.length / 3) +
      (if bytes.length % 3 = 0 then 0 else 1 + bytes.length % 3) ≤ outLength := by
    split_ifs <;> omega
  simp [liToBase64NoPadding, enough, encode_tuples_length, room]

/-- The encoding with some padding, and without padding behind a whole group of three bytes. -/
theorem padded_eq : ∃ count, (0 < count → 2 ≤ (digits bytes).length % 4) ∧
    (encodeTuples charset bytes ++ List.replicate count (padding charset)).length ≤ 4 *
      (bytes.length / 3) + 4 ∧
    liToBase64 charset (4 * (bytes.length / 3) + 4) bytes =
      some (encodeTuples charset bytes ++ List.replicate count (padding charset)) := by
  generalize isCount : (if bytes.length % 3 = 0 then 0 else 3 - bytes.length % 3) = count
  have size := digits_length bytes
  have room : (4 * bytes.length + 2) / 3 + count ≤ 4 * (bytes.length / 3) + 4 := by
    split_ifs at isCount <;> omega
  have length : (encodeTuples charset bytes ++ List.replicate count (padding charset)).length =
      (4 * bytes.length + 2) / 3 + count := by
    rw [length_append, encode_tuples_length, length_replicate]
  refine ⟨count, ?_, length ▸ room, ?_⟩
  · split_ifs at isCount <;> omega
  · have asked : 4 * (bytes.length / 3) + 4 ≥ count := by omega
    unfold padding at length ⊢
    simp only [liToBase64, isCount, guard, asked, if_true,
      no_padding_eq charset bytes _ (Nat.le_sub_of_add_le room),
      length, room, Option.pure_def, Option.bind_eq_bind, Option.bind_some]

theorem append_encoded_spec {encode : Nat → Bytes → Option Bytes} {text : Bytes}
    {b : Buffer} (sound : Sound b) (encoded : encode (4 * (bytes.length / 3) + 4) bytes = some text)
    (room : text.length ≤ 4 * (bytes.length / 3) + 4) :
    ∃ c, appendEncoded fresh encode bytes b = some c ∧ c.text = b.text ++ text := by
  obtain ⟨used, same, _, enough⟩ := prepare_append_spec fresh sound (4 * (bytes.length / 3) + 4)
  obtain ⟨c, committed, isText, _⟩ := commit_fill text [] used (by omega)
  rw [append_nil] at committed
  refine ⟨c, ?_, same ▸ isText⟩
  rw [← committed]
  simp [appendEncoded, encoded]

theorem encoded_accepted {count : Nat} (whole : 0 < count → 2 ≤ (digits bytes).length % 4) :
    let text := encodeTuples charset bytes ++ List.replicate count (padding charset)
    values charset text = digits bytes ∧ Accepted charset text := by
  have each : ∀ c ∈ (digits bytes).map charset.char, live charset c ∧ 32 < c := by
    intro c mem
    obtain ⟨digit, inDigits, rfl⟩ := mem_map.mp mem
    exact (reverse_char (digits_small bytes digit inDigits)).2
  have dead : live charset (padding charset) = false := by cases charset <;> decide
  intro text
  have taken : text.takeWhile (live charset) = (digits bytes).map charset.char := by
    rw [takeWhile_append_of_pos (encode_tuples_eq charset bytes ▸ fun c mem => (each c mem).1),
      takeWhile_replicate, dead, encode_tuples_eq]
    exact append_nil _
  have left : text.dropWhile (live charset) = List.replicate count (padding charset) := by
    rw [dropWhile_append_of_pos (encode_tuples_eq charset bytes ▸ fun c mem => (each c mem).1),
      dropWhile_replicate, dead]
    rfl
  have same : values charset text = digits bytes := by
    rw [values, taken, digitChars, filter_eq_self.mpr (fun c mem => decide_eq_true (each c mem).2), map_map]
    exact (map_congr_left fun digit mem => congrArg Int.toNat
      (reverse_char (digits_small bytes digit mem)).1).trans (map_id _)
  have size := digits_length bytes
  rw [Accepted, same, left]
  refine ⟨rfl, ?_, by omega, (octets_digits bytes).2⟩
  cases count with
  | zero => rfl
  | succ count => simpa [replicate_succ, stops] using Or.inr (whole (Nat.zero_lt_succ count))

def consumed (charset : Base64Charset) (input : Bytes) : Bytes :=
  digitChars (input.takeWhile fun c => c ≠ 0 ∧ c ≠ padding charset)

theorem consumed_eq {group : Nat} (stopped : stops charset group (input.dropWhile (live charset))) :
    input.takeWhile (fun c => c ≠ 0 ∧ c ≠ padding charset) = input.takeWhile (live charset) := by
  induction input with
  | nil => rfl
  | cons c input ih =>
    rcases classified charset c with ⟨isLive, nonzero, _, apart, _⟩ | ⟨dead, _⟩
    · rw [dropWhile_cons_of_pos isLive] at stopped
      rw [takeWhile_cons_of_pos isLive, takeWhile_cons_of_pos (by simp [nonzero, apart]), ih stopped]
    · rw [dropWhile_cons_of_neg dead] at stopped
      rw [takeWhile_cons_of_neg dead, takeWhile_cons_of_neg]
      simp only [stops, decide_eq_true_eq] at stopped
      simp
      tauto

end Encoding

/-- Decoding inverts either encoding, accepts nothing but encodings of what it appends, and stays
inside of what it has reserved. -/
structure Exact (charset : Base64Charset) : Prop where
  roundTrip : ∀ (fresh : Nat → Byte) (bytes : Bytes) {b out : Buffer}, Sound b → Sound out →
    ∀ encode ∈ [bufferAppendBase64Encode, bufferAppendBase64EncodeNoPadding], ∃ encoded text decoded,
      encode fresh charset bytes b = some encoded ∧ encoded.text = b.text ++ text ∧
        bufferAppendBase64Decode fresh charset text out = some (decoded, true) ∧
        decoded.text = out.text ++ bytes
  canonical : ∀ (fresh : Nat → Byte) (input : Bytes) {out appended : Buffer}, Sound out →
    bufferAppendBase64Decode fresh charset input out = some (appended, true) →
      ∃ bytes, appended.text = out.text ++ bytes ∧
        liToBase64NoPadding charset (consumed charset input).length bytes = some (consumed charset input)
  injective : ∀ (fresh : Nat → Byte) (input other : Bytes) {out appended again : Buffer}, Sound out →
    bufferAppendBase64Decode fresh charset input out = some (appended, true) →
      bufferAppendBase64Decode fresh charset other out = some (again, true) →
        appended.text = again.text → consumed charset input = consumed charset other
  inside : ∀ (fresh : Nat → Byte) (input : Bytes) {out : Buffer}, Sound out →
    bufferAppendBase64Decode fresh charset input out ≠ none

theorem appended_encoding {charset : Base64Charset} {out appended : Buffer}
    (sound : Sound out) (decoded : bufferAppendBase64Decode fresh charset input out =
      some (appended, true)) :
    ∃ bytes, appended.text = out.text ++ bytes ∧ encodeTuples charset bytes = consumed charset input := by
  by_cases accepted : Accepted charset input
  · obtain ⟨result, isResult, text, _⟩ := decode_accepted fresh charset input sound accepted
    rw [decoded] at isResult
    cases isResult
    refine ⟨_, text, ?_⟩
    rw [encode_tuples_eq, digits_octets _ (values_small charset input) accepted.2.1 accepted.2.2,
      chars_of_values,
      consumed, consumed_eq charset accepted.1]
  · obtain ⟨kept, isResult, _⟩ := decode_refused fresh charset input sound accepted
    rw [decoded] at isResult
    cases isResult

theorem base64_exact (charset : Base64Charset) : Exact charset where
  roundTrip := by
    intro fresh bytes b out sound soundOut encode isEncode
    have decodes : ∀ count, (0 < count → 2 ≤ (digits bytes).length % 4) →
        ∃ decoded, bufferAppendBase64Decode fresh charset
        (encodeTuples charset bytes ++ List.replicate count (padding charset)) out = some (decoded, true) ∧
          decoded.text = out.text ++ bytes := by
      intro count whole
      obtain ⟨same, accepted⟩ := encoded_accepted charset bytes whole
      obtain ⟨decoded, isResult, text, _⟩ := decode_accepted fresh charset _ soundOut accepted
      rw [same, (octets_digits bytes).1] at text
      exact ⟨decoded, isResult, text⟩
    simp only [mem_cons, not_mem_nil, or_false] at isEncode
    rcases isEncode with rfl | rfl
    · obtain ⟨count, whole, room, isText⟩ := padded_eq charset bytes
      obtain ⟨encoded, isEncoded, text⟩ := append_encoded_spec bytes sound isText room
      obtain ⟨decoded, isDecoded, back⟩ := decodes count whole
      exact ⟨encoded, _, decoded, isEncoded, text, isDecoded, back⟩
    · have size := encode_tuples_length charset bytes
      have isText := no_padding_eq charset bytes (4 * (bytes.length / 3) + 4) (by omega)
      obtain ⟨encoded, isEncoded, text⟩ := append_encoded_spec bytes sound isText (by omega)
      obtain ⟨decoded, isDecoded, back⟩ := decodes 0 (fun none => absurd none (lt_irrefl 0))
      rw [replicate_zero, append_nil] at isDecoded
      exact ⟨encoded, _, decoded, isEncoded, text, isDecoded, back⟩
  canonical := by
    intro fresh input out appended sound decoded
    obtain ⟨bytes, text, encoding⟩ := appended_encoding sound decoded
    refine ⟨bytes, text, ?_⟩
    rw [← encoding, encode_tuples_length]
    exact no_padding_eq charset bytes _ le_rfl
  injective := by
    intro fresh input other out appended again sound decoded otherDecoded sameText
    obtain ⟨bytes, text, encoding⟩ := appended_encoding sound decoded
    obtain ⟨others, otherText, otherEncoding⟩ := appended_encoding sound otherDecoded
    rw [← encoding, ← otherEncoding, append_cancel_left (text.symm.trans (sameText.trans otherText))]
  inside := by
    intro fresh input out sound
    by_cases accepted : Accepted charset input
    · obtain ⟨result, isResult, _⟩ := decode_accepted fresh charset input sound accepted
      rw [isResult]
      exact Option.some_ne_none _
    · obtain ⟨kept, isResult, _⟩ := decode_refused fresh charset input sound accepted
      rw [isResult]
      exact Option.some_ne_none _

/-- "QUI=" is "AB". -/
example : (bufferAppendBase64Decode (fun _ => 7) .standard [81, 85, 73, 61] someBuffer).map
    (fun result => (result.1.text, result.2)) = some (someBuffer.text ++ [65, 66], true) := by
  decide

end ServerCore.LighttpdBase64Decoding
