import Mathlib.Data.FinEnum
import ServerCore.ByteTable
import ServerCore.NginxBase64
import ServerCore.SixBitDigits
import Mathlib.Data.List.GetD
import Mathlib.Data.List.TakeWhile

/-!
# The base64 decoder inverts the encoder

The characters stand for the digits of six bits of the string. An alphabet and a
table that are inverse to each other make a coding, and the results are about
every coding; both pairs of tables are one.
-/

namespace ServerCore.NginxBase64Decoding

open NginxBase64 SixBitDigits List Option

variable {alphabet table basis s src ending : Bytes} {len : Nat} {padding : Bool}

/-- An alphabet of the encoder and the table of the decoder that belongs to it. -/
structure Coding where
  alphabet : Bytes
  table : Bytes
  size : alphabet.length = 64
  inverse : ∀ index : Fin 64, entry table (entry alphabet (UInt8.ofNat index.val)) = UInt8.ofNat index.val
  marked : ∀ c : Byte, entry table c = 77 ↔ c ∉ alphabet
  equalSign_not_mem : equalSign ∉ alphabet

/-- A table marks what is not in the alphabet, if it takes the letters to their places and every
other byte that is not marked to the place of the byte. -/
theorem marked_of_inverse (size : alphabet.length = 64)
    (inverse : ∀ index : Fin 64, entry table (entry alphabet (UInt8.ofNat index.val)) =
      UInt8.ofNat index.val)
    (back : ∀ c, entry table c = 77 ∨
      ((entry table c).toNat < 64 ∧ entry alphabet (entry table c) = c)) (c : Byte) :
    entry table c = 77 ↔ c ∉ alphabet := by
  constructor
  · intro marked mem
    obtain ⟨index, bound, isLetter⟩ := mem_iff_getElem.mp mem
    have small : index < 64 := size ▸ bound
    have code : (UInt8.ofNat index).toNat = index := UInt8.toNat_ofNat_of_lt (Nat.lt_trans small (by decide))
    have letter : entry alphabet (UInt8.ofNat index) = c := by
      rw [entry, code, getD_eq_getElem _ _ bound, isLetter]
    have place := inverse ⟨index, small⟩
    rw [letter, marked] at place
    have same : index = 77 := by
      rw [← code, ← place]
      rfl
    omega
  · intro outside
    rcases back c with marked | ⟨small, isLetter⟩
    · exact marked
    · have inside : (entry table c).toNat < alphabet.length := size ▸ small
      rw [entry, getD_eq_getElem _ _ inside] at isLetter
      exact absurd (isLetter ▸ getElem_mem inside) outside

theorem encode_basis_codes : encodeBasis = [ 65, 66, 67, 68, 69, 70, 71, 72, 73, 74, 75, 76, 77, 78, 79, 80,
    81, 82, 83, 84, 85, 86, 87, 88, 89, 90, 97, 98, 99, 100, 101, 102,
    103, 104, 105, 106, 107, 108, 109, 110, 111, 112, 113, 114, 115, 116, 117, 118,
    119, 120, 121, 122, 48, 49, 50, 51, 52, 53, 54, 55, 56, 57, 43, 47] := by
  decide

theorem encode_url_basis_codes : encodeUrlBasis = [
    65, 66, 67, 68, 69, 70, 71, 72, 73, 74, 75, 76, 77, 78, 79, 80,
    81, 82, 83, 84, 85, 86, 87, 88, 89, 90, 97, 98, 99, 100, 101, 102,
    103, 104, 105, 106, 107, 108, 109, 110, 111, 112, 113, 114, 115, 116, 117, 118,
    119, 120, 121, 122, 48, 49, 50, 51, 52, 53, 54, 55, 56, 57, 45, 95] := by
  decide

/-- Each entry of the table is the mark, or the place of its index in the alphabet. -/
def Fits (alphabet table : Bytes) : Prop :=
  ∀ pair ∈ table.zipIdx, pair.1 = 77 ∨ (pair.1.toNat < 64 ∧ entry alphabet pair.1 = UInt8.ofNat pair.2)

theorem entry_of_fits (fits : Fits alphabet table) (size : table.length = 256) (c : Byte) :
    entry table c = 77 ∨ ((entry table c).toNat < 64 ∧ entry alphabet (entry table c) = c) := by
  have inside : c.toNat < table.length := size ▸ c.toNat_lt
  have isEntry : entry table c = table[c.toNat] := by rw [entry, getD_eq_getElem _ _ inside]
  have mem : (table[c.toNat], c.toNat) ∈ table.zipIdx := by
    rw [mk_mem_zipIdx_iff_getElem?]
    exact getElem?_eq_getElem inside
  have fitted := fits _ mem
  rw [UInt8.ofNat_toNat] at fitted
  rw [isEntry]
  exact fitted

theorem standard_fits : Fits encodeBasis decodeBasis := by
  rw [encode_basis_codes]
  unfold Fits
  decide +kernel

theorem url_fits : Fits encodeUrlBasis decodeUrlBasis := by
  rw [encode_url_basis_codes]
  unfold Fits
  decide +kernel

theorem standard_inverse (index : Fin 64) :
    entry decodeBasis (entry encodeBasis (UInt8.ofNat index.val)) = UInt8.ofNat index.val := by
  rw [encode_basis_codes]
  revert index
  decide

theorem url_inverse (index : Fin 64) :
    entry decodeUrlBasis (entry encodeUrlBasis (UInt8.ofNat index.val)) = UInt8.ofNat index.val := by
  rw [encode_url_basis_codes]
  revert index
  decide

def standard : Coding where
  alphabet := encodeBasis
  table := decodeBasis
  size := by decide
  inverse := standard_inverse
  marked := marked_of_inverse (by decide) standard_inverse (entry_of_fits standard_fits (by decide +kernel))
  equalSign_not_mem := by decide

def url : Coding where
  alphabet := encodeUrlBasis
  table := decodeUrlBasis
  size := by decide
  inverse := url_inverse
  marked := marked_of_inverse (by decide) url_inverse (entry_of_fits url_fits (by decide +kernel))
  equalSign_not_mem := by decide

theorem encode_parts (b : Byte) :
    ((b >>> 2) &&& 0x3f = UInt8.ofNat (b.toNat / 4) ∧ b &&& 0x3f = UInt8.ofNat (b.toNat % 64)) ∧
    ((b &&& 3) <<< 4 = UInt8.ofNat ((b.toNat % 4) <<< 4) ∧ b >>> 4 = UInt8.ofNat (b.toNat / 16)) ∧
    (b &&& 0x0f) <<< 2 = UInt8.ofNat ((b.toNat % 16) <<< 2) ∧ b >>> 6 = UInt8.ofNat (b.toNat / 64) := by
  revert b
  exact ByteTable.forall_byte (by decide)

theorem shift_parts (b : Byte) :
    b <<< 2 = UInt8.ofNat (b.toNat <<< 2) ∧ b <<< 4 = UInt8.ofNat ((b.toNat % 16) <<< 4) ∧
    b <<< 6 = UInt8.ofNat ((b.toNat % 4) <<< 6) ∧ b >>> 2 = UInt8.ofNat (b.toNat / 4) := by
  revert b
  exact ByteTable.forall_byte (by decide)

theorem decode_parts {a b : Byte} (small : b.toNat < 64) :
    a <<< 2 ||| b >>> 4 = UInt8.ofNat (4 * a.toNat + b.toNat / 16) ∧
      a <<< 4 ||| b >>> 2 = UInt8.ofNat (16 * (a.toNat % 16) + b.toNat / 4) ∧
      a <<< 6 ||| b = UInt8.ofNat (64 * (a.toNat % 4) + b.toNat) := by
  have first := joined_octet a.toNat (show b.toNat / 16 < 2 ^ 2 by omega)
  have second := joined_octet (a.toNat % 16) (show b.toNat / 4 < 2 ^ 4 by omega)
  have third := joined_octet (a.toNat % 4) (show b.toNat < 2 ^ 6 from small)
  rw [UInt8.ofNat_toNat] at third
  rw [(encode_parts b).2.1.2, (shift_parts b).2.2.2, (shift_parts a).1,
    (shift_parts a).2.1, (shift_parts a).2.2.1]
  exact ⟨first, second, third⟩

theorem encode_eq (basis s : Bytes) :
    ngxEncodeBase64Internal basis false s = (digits s).map fun digit => entry basis (UInt8.ofNat digit) := by
  fun_induction ngxEncodeBase64Internal basis false s with
  | case1 s0 s1 s2 s ih =>
    have := s1.toNat_lt
    have := s2.toNat_lt
    have second := joined_octet (s0.toNat % 4) (show s1.toNat / 16 < 2 ^ 4 by omega)
    have third := joined_octet (s1.toNat % 16) (show s2.toNat / 64 < 2 ^ 2 by omega)
    simp only [digits, map_cons, ih, encode_parts s0, encode_parts s1, encode_parts s2,
      second, third, Nat.reducePow]
  | case2 s0 =>
    simp only [digits, map_cons, encode_parts s0, Nat.shiftLeft_eq, Nat.reducePow, Nat.mul_comm]
    rfl
  | case3 s0 s1 =>
    have := s1.toNat_lt
    have second := joined_octet (s0.toNat % 4) (show s1.toNat / 16 < 2 ^ 4 by omega)
    simp only [digits, map_cons, encode_parts s0, encode_parts s1, second, Nat.reducePow,
      Nat.shiftLeft_eq _ 2, Nat.mul_comm]
    rfl
  | case4 => rfl

theorem encode_padding : ∃ count, ngxEncodeBase64Internal basis true s =
      ngxEncodeBase64Internal basis false s ++ List.replicate count equalSign := by
  fun_induction ngxEncodeBase64Internal basis true s with
  | case1 s0 s1 s2 s ih =>
    obtain ⟨count, isPadded⟩ := ih
    exact ⟨count, by rw [isPadded]; rfl⟩
  | case2 s0 => exact ⟨2, rfl⟩
  | case3 s0 s1 => exact ⟨1, rfl⟩
  | case4 => exact ⟨0, rfl⟩

section Decoding

variable (coding : Coding) {c : Byte}

theorem entry_spec {digit : Nat} (small : digit < 64) :
    entry coding.alphabet (UInt8.ofNat digit) ∈ coding.alphabet ∧
    (entry coding.table (entry coding.alphabet (UInt8.ofNat digit))).toNat = digit := by
  have code : (UInt8.ofNat digit).toNat = digit := to_nat_of_nat (by omega)
  have inside : (UInt8.ofNat digit).toNat < coding.alphabet.length := by rwa [coding.size, code]
  have found := coding.inverse ⟨digit, small⟩
  rw [found, code, entry, getD_eq_getElem _ _ inside]
  exact ⟨getElem_mem inside, rfl⟩

theorem entry_small (mem : c ∈ coding.alphabet) : (entry coding.table c).toNat < 64 := by
  obtain ⟨index, bound, isLetter⟩ := mem_iff_getElem.mp mem
  have small : index < 64 := coding.size ▸ bound
  have code : (UInt8.ofNat index).toNat = index := to_nat_of_nat (by omega)
  have letter : entry coding.alphabet (UInt8.ofNat index) = c := by
    rw [entry, code, getD_eq_getElem _ _ bound, isLetter]
  rw [← letter, (entry_spec coding small).2]
  exact small

theorem encode_mem : ∀ c ∈ ngxEncodeBase64Internal coding.alphabet false s, c ∈ coding.alphabet := by
  rw [encode_eq]
  intro c mem
  obtain ⟨digit, inDigits, rfl⟩ := mem_map.mp mem
  exact (entry_spec coding (digits_small s digit inDigits)).1

/-- The characters in front of the first `=`, or of the end. -/
def plain (src : Bytes) : Bytes := src.takeWhile (· != equalSign)

theorem plain_split :
    ∃ rest, src = plain src ++ rest ∧ (rest = [] ∨ ∃ more, rest = equalSign :: more) := by
  induction src with
  | nil => exact ⟨[], rfl, Or.inl rfl⟩
  | cons c src ih =>
    obtain ⟨rest, split, ends⟩ := ih
    by_cases isEqual : c = equalSign
    · refine ⟨c :: src, ?_, Or.inr ⟨src, by rw [isEqual]⟩⟩
      rw [plain, takeWhile_cons_of_neg (by simp [isEqual]), nil_append]
    · refine ⟨rest, ?_, ends⟩
      rw [plain, takeWhile_cons_of_pos (by simpa using isEqual), cons_append]
      exact congrArg (List.cons c) split

theorem not_equal_of_plain (mem : c ∈ plain src) : c ≠ equalSign := by
  have kept := mem_takeWhile_imp mem
  simpa using kept

theorem length_loop_append {chars : Bytes} (inside : ∀ c ∈ chars, c ∈ coding.alphabet) (left len : Nat)
    (rest : Bytes) : lengthLoop coding.table (chars.length + left) (chars ++ rest) len =
      lengthLoop coding.table left rest (len + chars.length) := by
  induction chars generalizing len with
  | nil => simp
  | cons c chars ih =>
    have isMem := inside c mem_cons_self
    have apart : c ≠ equalSign := fun same => coding.equalSign_not_mem (same ▸ isMem)
    have valid : ¬ entry coding.table c = 77 := fun marked => (coding.marked c).mp marked isMem
    have count : (c :: chars).length + left = (chars.length + left) + 1 := by
      rw [length_cons]
      omega
    rw [count, cons_append, lengthLoop, if_neg apart, if_neg valid,
      ih (fun other mem => inside other (mem_cons_of_mem c mem)), length_cons]
    congr 1
    omega

theorem length_loop_marked (apart : c ≠ equalSign) (outside : c ∉ coding.alphabet) {left : Nat}
    {rest : Bytes} : lengthLoop coding.table (left + 1) (c :: rest) len = some none := by
  rw [lengthLoop, if_neg apart, if_pos ((coding.marked c).mpr outside)]

theorem decode_loop_small (small : ¬ len > 3) :
    decodeLoop basis s len = decodeTail basis s len := by
  unfold decodeLoop
  split <;> rw [if_neg small]

theorem decode_octets {chars : Bytes} (more : Bytes) (small : ∀ c ∈ chars, (entry basis c).toNat < 64)
    (ended : chars.length % 4 ≠ 1) : decodeLoop basis (chars ++ more) chars.length =
      some (octets (chars.map fun c => (entry basis c).toNat)) := by
  match chars with
  | [] =>
    rw [decode_loop_small (by decide)]
    rfl
  | [_] => simp at ended
  | [c0, c1] =>
    simp only [forall_mem_cons] at small
    rw [decode_loop_small (by simp)]
    exact congrArg (some [·]) (decode_parts small.2.1).1
  | [c0, c1, c2] =>
    simp only [forall_mem_cons] at small
    rw [decode_loop_small (by simp)]
    simp [decodeTail, octets, decode_parts small.2.1, decode_parts small.2.2.1]
  | c0 :: c1 :: c2 :: c3 :: chars =>
    simp only [forall_mem_cons] at small
    obtain ⟨_, small1, small2, small3, small⟩ := small
    simp only [length_cons] at ended
    have decoded := decode_octets more small (by omega)
    have longer : chars.length + 1 + 1 + 1 + 1 > 3 := by omega
    have left : chars.length + 1 + 1 + 1 + 1 - 4 = chars.length := by omega
    simp [decodeLoop, decoded, octets, decode_parts small1, decode_parts small2, decode_parts small3]

theorem decode_valid {chars : Bytes} (inside : ∀ c ∈ chars, c ∈ coding.alphabet)
    (ends : ending = [] ∨ ∃ more, ending = equalSign :: more) (more : Bytes) :
    ngxDecodeBase64Internal coding.table (chars ++ ending.take 1 ++ more) (chars.length + ending.length) =
      if chars.length % 4 = 1 then some none
      else some (some (octets (chars.map fun c => (entry coding.table c).toNat))) := by
  have counted : lengthLoop coding.table (chars.length + ending.length)
      (chars ++ ending.take 1 ++ more) 0 = some (some chars.length) := by
    rw [append_assoc, length_loop_append coding inside, Nat.zero_add]
    rcases ends with isNil | isEqual
    · rw [isNil]
      rfl
    · obtain ⟨others, isEqual⟩ := isEqual
      rw [isEqual, length_cons, take_succ_cons, cons_append, lengthLoop, if_pos rfl]
  rw [ngxDecodeBase64Internal, counted, bind_eq_bind, bind_some]
  by_cases one : chars.length % 4 = 1
  · rw [if_pos one]
    exact if_pos one
  · rw [if_neg one, append_assoc]
    apply (if_neg one).trans
    rw [decode_octets _ (fun c mem => entry_small coding (inside c mem)) one]
    rfl

theorem decode_invalid {chars : Bytes} (apart : ∀ c ∈ chars, c ≠ equalSign)
    (outside : ∃ c ∈ chars, c ∉ coding.alphabet) (more : Bytes) :
    ngxDecodeBase64Internal coding.table (chars ++ more) (chars.length + ending.length) = some none := by
  have stops : ∀ len, lengthLoop coding.table (chars.length + ending.length) (chars ++ more) len =
      some none := by
    induction chars with
    | nil => exact absurd outside (by simp)
    | cons c chars ih =>
      intro len
      have count : (c :: chars).length + ending.length = (chars.length + ending.length) + 1 := by
        rw [length_cons]
        omega
      have isApart := apart c mem_cons_self
      rw [count, cons_append]
      by_cases isMem : c ∈ coding.alphabet
      · have valid : ¬ entry coding.table c = 77 := fun marked => (coding.marked c).mp marked isMem
        rw [lengthLoop, if_neg isApart, if_neg valid]
        apply ih (fun other mem => apart other (mem_cons_of_mem c mem))
        obtain ⟨other, mem, isOutside⟩ := outside
        rcases mem_cons.mp mem with same | later
        · exact absurd (same ▸ isMem) isOutside
        · exact ⟨other, later, isOutside⟩
      · exact length_loop_marked coding isApart isMem
  rw [ngxDecodeBase64Internal, stops 0]
  rfl

end Decoding

/-- What a pair of encoder and decoder does: the round trip, which strings are accepted and how
much is written for them, and that nothing behind the first `=` is read. -/
structure Inverts (encode : Bytes → Bytes)
    (decode : Bytes → Nat → Option (Option Bytes)) (alphabet : Bytes) : Prop where
  roundTrip : ∀ s, decode (encode s) (encode s).length = some (some s)
  reads : ∀ src : Bytes, ∃ result, ∀ more,
    decode (src.take ((plain src).length + 1) ++ more) src.length = some result
  length : ∀ src out : Bytes, decode src src.length = some (some out) →
    out.length = 3 * (plain src).length / 4
  accepts : ∀ src : Bytes, (∃ out, decode src src.length = some (some out)) ↔
    (∀ c ∈ plain src, c ∈ alphabet) ∧ (plain src).length % 4 ≠ 1

section Codings

variable (coding : Coding)

def values (src : Bytes) : List Nat := (plain src).map fun c => (entry coding.table c).toNat

theorem decode_cases (src more : Bytes) :
    ngxDecodeBase64Internal coding.table (src.take ((plain src).length + 1) ++ more) src.length =
      if (∀ c ∈ plain src, c ∈ coding.alphabet) ∧ (plain src).length % 4 ≠ 1 then
        some (some (octets (values coding src)))
      else some none := by
  obtain ⟨ending, split, ends⟩ := plain_split
  have apart : ∀ c ∈ plain src, c ≠ equalSign := fun c mem => not_equal_of_plain mem
  unfold values
  generalize plain src = chars at split apart ⊢
  have taken : src.take (chars.length + 1) = chars ++ ending.take 1 := by
    rw [split, take_length_add_append]
  have size : src.length = chars.length + ending.length := by
    rw [split, length_append]
  rw [taken, size]
  by_cases inside : ∀ c ∈ chars, c ∈ coding.alphabet
  · rw [decode_valid coding inside ends]
    by_cases one : chars.length % 4 = 1
    · rw [if_pos one, if_neg (fun both => both.2 one)]
    · rw [if_neg one, if_pos ⟨inside, one⟩]
  · have outside : ∃ c ∈ chars, c ∉ coding.alphabet := by simpa using inside
    rw [append_assoc, decode_invalid coding apart outside, if_neg (fun both => inside both.1)]

theorem decode_whole (src : Bytes) : ngxDecodeBase64Internal coding.table src src.length =
    if (∀ c ∈ plain src, c ∈ coding.alphabet) ∧ (plain src).length % 4 ≠ 1 then
      some (some (octets (values coding src)))
    else some none := by
  have whole := decode_cases coding src (src.drop ((plain src).length + 1))
  rwa [take_append_drop] at whole

theorem encode_plain (padding : Bool) (s : Bytes) :
    plain (ngxEncodeBase64Internal coding.alphabet padding s) =
      ngxEncodeBase64Internal coding.alphabet false s := by
  have apart : ∀ c ∈ ngxEncodeBase64Internal coding.alphabet false s, (c != equalSign) = true := by
    intro c mem
    rw [bne_iff_ne]
    intro isEqual
    exact coding.equalSign_not_mem (isEqual ▸ encode_mem coding c mem)
  cases padding with
  | false => exact takeWhile_eq_self_iff.mpr apart
  | true =>
    obtain ⟨count, isPadded⟩ := encode_padding
    rw [isPadded, plain, takeWhile_append_of_pos apart]
    cases count with
    | zero => exact append_nil _
    | succ count =>
      rw [replicate_succ, takeWhile_cons_of_neg (by simp), append_nil]

theorem decode_round_trip (s : Bytes) :
    ngxDecodeBase64Internal coding.table (ngxEncodeBase64Internal coding.alphabet padding s)
      (ngxEncodeBase64Internal coding.alphabet padding s).length = some (some s) := by
  have size := digits_length s
  have back : ((digits s).map fun digit => entry coding.alphabet (UInt8.ofNat digit)).map
      (fun c => (entry coding.table c).toNat) = digits s := by
    rw [List.map_map]
    exact (map_congr_left fun digit mem => (entry_spec coding (digits_small s digit mem)).2).trans (map_id _)
  rw [decode_whole, values, encode_plain,
    if_pos ⟨encode_mem coding, by rw [encode_eq, length_map]; omega⟩, encode_eq,
    back, (octets_digits s).1]

theorem coding_inverts : Inverts (ngxEncodeBase64Internal coding.alphabet padding)
      (ngxDecodeBase64Internal coding.table) coding.alphabet where
  roundTrip := decode_round_trip coding
  reads := by
    intro src
    by_cases accepted : (∀ c ∈ plain src, c ∈ coding.alphabet) ∧ (plain src).length % 4 ≠ 1
    · exact ⟨_, fun more => (decode_cases coding src more).trans (if_pos accepted)⟩
    · exact ⟨_, fun more => (decode_cases coding src more).trans (if_neg accepted)⟩
  length := by
    intro src written isWritten
    rw [decode_whole] at isWritten
    split_ifs at isWritten
    · cases isWritten
      rw [octets_length, values, length_map]
    · cases isWritten
  accepts := by
    intro src
    rw [decode_whole]
    split_ifs with accepted
    · exact ⟨fun _ => accepted, fun _ => ⟨_, rfl⟩⟩
    · refine ⟨?_, fun holds => absurd holds accepted⟩
      intro found
      obtain ⟨written, isWritten⟩ := found
      cases isWritten

end Codings

/-- Both decoders invert their encoders. -/
theorem base64_inverts : Inverts ngxEncodeBase64 ngxDecodeBase64 encodeBasis ∧
      Inverts ngxEncodeBase64url ngxDecodeBase64url encodeUrlBasis :=
  ⟨coding_inverts standard, coding_inverts url⟩

theorem equal_sign_read : plain [equalSign] = [] ∧
      ngxDecodeBase64 ([equalSign].take (plain [equalSign]).length) [equalSign].length = none := by
  decide

end ServerCore.NginxBase64Decoding
