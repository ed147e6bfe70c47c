import Mathlib.Data.List.GetD
import ServerCore.NginxInet

/-!
# Addresses are read back from their text

For IPv6 the loop of the reader is run over what the loop of the printer writes:
before the run of zeros it has written the bytes printed so far, and behind the
run the same without it.
-/

namespace ServerCore.NginxInetRoundTrip

open NginxHttpParse (Byte Bytes)
open NginxInet PositionalText List

variable {max : Nat}

variable {zero : Option Nat}

variable {b0 b1 b2 b3 : Byte} {rest : Bytes} {number place : Nat}
variable {addr : In6Addr} {n count nibbles turns : Nat} {byte : Byte} {runs : Runs}
  {p text : Bytes}

theorem decimal_digit_facts : ∀ value < 10, isDigit (decimalDigit value) = true ∧
    digitOf (decimalDigit value) = value ∧ decimalDigit value ≠ dot ∧
    decimalDigit value ≠ colon ∧ hexValue (decimalDigit value) = some value ∧
    decimalDigit value ≠ ']'.toUInt8 := by
  decide

theorem hex_digit_facts : ∀ value < 16, hexValue (hexDigit value) = some value ∧
    hexDigit value ≠ dot ∧ hexDigit value ≠ colon ∧ hexDigit value ≠ ']'.toUInt8 := by
  decide

theorem decimal_ne_nil : decimal number ≠ [] := numeral_ne_nil _ _

theorem hexadecimal_ne_nil : hexadecimal number ≠ [] := numeral_ne_nil _ _

theorem read_octet {addr : Nat} {octet : Nat} (small : octet ≤ 255) (rest : Bytes) :
    inetLoop addr 0 n (decimal octet ++ rest) = inetLoop addr octet n rest := by
  have reads : ∀ taken value next behind, next < 10 → taken < 3 → value * 10 + next ≤ 255 →
      inetLoop addr value n (decimalDigit next :: behind) =
        inetLoop addr (value * 10 + next) n behind := by
    intro taken value next behind isDecimal _ bounded
    rcases decimal_digit_facts next isDecimal with ⟨isDigit, isValue, -⟩
    rw [inetLoop, if_pos isDigit]
    simp only [isValue]
    rw [if_neg (not_lt.mpr bounded)]
  exact read_numeral (fun _ value => inetLoop addr value n) (by decide) reads small
    (lt_of_le_of_lt small (by decide)) (length_numeral (by decide)
      (lt_of_le_of_lt small (by decide))) rest

theorem read_dot (addr octet n : Nat) (rest : Bytes) : inetLoop addr octet n (dot :: rest) =
      inetLoop (((addr <<< 8) + octet) % 2 ^ 32) 0 (n + 1) rest := by
  have notDigit : isDigit dot = false := by decide
  rw [inetLoop, notDigit, if_neg (by decide), if_pos rfl]

theorem byte_le (byte : Byte) : byte.toNat ≤ 255 := Nat.le_of_lt_succ byte.toNat_lt

theorem of_nat_eq (same : number % 256 = byte.toNat) : UInt8.ofNat number = byte := by
  apply UInt8.toNat_inj.mp
  rw [UInt8.toNat_ofNat', same]

theorem htonl_bytes (b0 b1 b2 b3 : Byte) :
    htonl (((b0.toNat * 256 + b1.toNat) * 256 + b2.toNat) * 256 + b3.toNat) = ⟨b0, b1, b2, b3⟩ := by
  have small0 := byte_le b0
  have small1 := byte_le b1
  have small2 := byte_le b2
  have small3 := byte_le b3
  rw [htonl]
  congr 1
  · apply of_nat_eq
    omega
  · apply of_nat_eq
    omega
  · apply of_nat_eq
    omega
  · apply of_nat_eq
    omega

theorem read_dotted (b0 b1 b2 b3 : Byte) (rest : Bytes) : ngxInetAddr (dotted b0 b1 b2 b3 ++ rest) =
      inetLoop ((b0.toNat * 256 + b1.toNat) * 256 + b2.toNat) b3.toNat 3 rest := by
  have small0 := byte_le b0
  have small1 := byte_le b1
  have small2 := byte_le b2
  rw [ngxInetAddr, dotted]
  simp only [append_assoc, cons_append]
  rw [read_octet small0, read_dot, read_octet small1, read_dot, read_octet small2,
    read_dot, read_octet (byte_le b3)]
  congr 1
  omega

theorem dotted_read_back (b0 b1 b2 b3 : Byte) : ngxInetAddr (dotted b0 b1 b2 b3) = ⟨b0, b1, b2, b3⟩ := by
  have small0 := byte_le b0
  have small1 := byte_le b1
  have small2 := byte_le b2
  have small3 := byte_le b3
  have read := read_dotted b0 b1 b2 b3 []
  rw [append_nil] at read
  rw [read, inetLoop, if_pos rfl, Nat.shiftLeft_eq, Nat.mod_eq_of_lt (by omega)]
  exact htonl_bytes b0 b1 b2 b3

theorem read_word (st : Inet6) {word : Nat} (small : word ≤ 65535) (rest : Bytes) :
    inet6Loop { st with nibbles := 0, word := 0 } (hexadecimal word ++ rest) =
      inet6Loop { st with nibbles := (hexadecimal word).length, word := word } rest := by
  have reads : ∀ taken value next behind, next < 16 → taken < 4 → value * 16 + next ≤ 65535 →
      inet6Loop { st with nibbles := taken, word := value } (hexDigit next :: behind) =
        inet6Loop { st with nibbles := taken + 1, word := value * 16 + next } behind := by
    intro taken value next behind isHex room _
    rcases hex_digit_facts next isHex with ⟨isValue, notDot, notColon, -⟩
    rw [inet6Loop, if_neg notColon, if_neg (fun isDot => notDot isDot.1),
      if_neg (not_lt.mpr room), isValue]
  exact read_numeral (fun taken value => inet6Loop { st with nibbles := taken, word := value })
    (by decide) reads small (lt_of_le_of_lt small (by decide))
    (length_numeral (by decide) (lt_of_le_of_lt small (by decide))) rest

theorem read_digits (st : Inet6) {digits : Bytes}
    (areDigits : ∀ c ∈ digits, ∃ value < 10, c = decimalDigit value)
    (room : st.nibbles + digits.length ≤ 4) (rest : Bytes) : ∃ word, inet6Loop st (digits ++ rest) =
      inet6Loop { st with nibbles := st.nibbles + digits.length, word := word } rest := by
  induction digits generalizing st with
  | nil => exact ⟨st.word, rfl⟩
  | cons c digits ih =>
    rcases areDigits c (by simp) with ⟨value, isDecimal, rfl⟩
    rcases decimal_digit_facts value isDecimal with ⟨-, -, notDot, notColon, isValue, -⟩
    rw [length_cons] at room
    have step : inet6Loop st (decimalDigit value :: (digits ++ rest)) =
        inet6Loop { st with nibbles := st.nibbles + 1, word := st.word * 16 + value }
          (digits ++ rest) := by
      rw [inet6Loop, if_neg notColon, if_neg (fun isDot => notDot isDot.1),
        if_neg (by omega), isValue]
    rcases ih { st with nibbles := st.nibbles + 1, word := st.word * 16 + value }
      (fun other mem => areDigits other (mem_cons_of_mem _ mem))
      (by change st.nibbles + 1 + digits.length ≤ 4; omega) with ⟨word, after⟩
    apply Exists.intro word
    rw [cons_append, step, after, length_cons]
    rw [add_assoc, add_comm 1]

theorem decimal_digits (number : Nat) : ∀ c ∈ decimal number, ∃ value < 10, c = decimalDigit value :=
  fun _ mem => mem_numeral (by decide) mem

theorem decimal_length (byte : Byte) : (decimal byte.toNat).length ≤ 3 :=
  length_numeral (by decide) (lt_of_le_of_lt (byte_le byte) (by decide))

variable {st : Inet6} {i port len : Nat} {c : Byte} {front : Bytes}

theorem read_to_dot (noNibbles : st.nibbles = 0) (byte : Byte) (rest : Bytes) :
    ∃ nibbles word, nibbles ≠ 0 ∧ inet6Loop st (decimal byte.toNat ++ dot :: rest) =
      dottedRest { st with nibbles := nibbles, word := word } := by
  have short := decimal_length byte
  have some_ : (decimal byte.toNat).length ≠ 0 := fun none_ =>
    decimal_ne_nil (eq_nil_of_length_eq_zero none_)
  rcases read_digits st (decimal_digits byte.toNat) (by omega) (dot :: rest) with ⟨word, read⟩
  apply Exists.intro (st.nibbles + (decimal byte.toNat).length)
  apply Exists.intro word
  apply And.intro (by omega)
  rw [read, inet6Loop, if_neg (by decide), if_pos]
  exact ⟨rfl, by change st.nibbles + (decimal byte.toNat).length ≠ 0; omega⟩

theorem ntohl_parts (b0 b1 b2 b3 : Byte) : UInt8.ofNat ((ntohl ⟨b0, b1, b2, b3⟩ >>> 24) &&& 0xff) = b0 ∧
      UInt8.ofNat ((ntohl ⟨b0, b1, b2, b3⟩ >>> 16) &&& 0xff) = b1 ∧
      wordBytes (ntohl ⟨b0, b1, b2, b3⟩) = [b2, b3] := by
  have small0 := byte_le b0
  have small1 := byte_le b1
  have small2 := byte_le b2
  have small3 := byte_le b3
  have low : ∀ number : Nat, number &&& 0xff = number % 256 := fun number =>
    Nat.and_two_pow_sub_one_eq_mod number 8
  simp only [wordBytes, ntohl, low, Nat.shiftRight_eq_div_pow]
  refine ⟨?_, ?_, ?_⟩
  · apply of_nat_eq
    omega
  · apply of_nat_eq
    omega
  · congr 1
    · apply of_nat_eq
      omega
    · congr 1
      apply of_nat_eq
      omega

theorem read_dotted_end (noNibbles : st.nibbles = 0) (isDigit : st.digit = some (dotted b0 b1 b2 b3))
    (room : 2 ≤ st.n) (isZero : st.zero = some place) (notLast : st.n ≠ 2) :
    (inet6Loop st (dotted b0 b1 b2 b3)).bind inet6Finish =
      if (⟨b0, b1, b2, b3⟩ : InAddr) = inaddrNone then none
      else some ((st.addr ++ [b0, b1, b2, b3]).take place ++ List.replicate ((st.n - 2) * 2) 0 ++
        (st.addr ++ [b0, b1, b2, b3]).drop place) := by
  have shape : dotted b0 b1 b2 b3 = decimal b0.toNat ++ dot :: (decimal b1.toNat ++
      dot :: (decimal b2.toNat ++ dot :: decimal b3.toNat)) := by
    simp [dotted]
  rcases read_to_dot noNibbles b0 (decimal b1.toNat ++
    dot :: (decimal b2.toNat ++ dot :: decimal b3.toNat)) with ⟨nibbles, word, some_, read⟩
  rw [← shape] at read
  rcases ntohl_parts b0 b1 b2 b3 with ⟨first, second, low⟩
  rw [read, dottedRest, isDigit]
  simp only [dotted_read_back, if_neg (not_lt.mpr room)]
  by_cases isNone : (⟨b0, b1, b2, b3⟩ : InAddr) = inaddrNone
  · rw [if_pos isNone, if_pos isNone]
    rfl
  · rw [if_neg isNone, if_neg isNone, Option.bind_some, inet6Finish, if_neg (fun both => some_ both.1)]
    simp only [first, second, low, isZero, append_assoc, cons_append, nil_append]
    rw [if_pos (by omega), Nat.sub_sub]

section Words

variable {p : Bytes}

theorem take_two (inside : i + 1 < p.length) :
    p.take (i + 2) = p.take i ++ [p.getD i 0, p.getD (i + 1) 0] := by
  have first : i < p.length := Nat.lt_of_succ_lt inside
  rw [take_succ_eq_append_getElem inside, take_succ_eq_append_getElem first,
    append_assoc, getD_eq_getElem _ _ first, getD_eq_getElem _ _ inside]
  rfl

theorem word_bytes_back (first second : Byte) :
    wordBytes (first.toNat * 256 + second.toNat) = [first, second] := by
  have small := byte_le second
  have low : (first.toNat * 256 + second.toNat) &&& 0xff =
      (first.toNat * 256 + second.toNat) % 256 :=
    Nat.and_two_pow_sub_one_eq_mod _ 8
  have high := byte_le first
  rw [wordBytes, low, Nat.shiftRight_eq_div_pow]
  congr 1
  · apply of_nat_eq
    omega
  · congr 1
    apply of_nat_eq
    omega

theorem word_le (first second : Byte) : first.toNat * 256 + second.toNat ≤ 65535 := by
  have high := byte_le first
  have low := byte_le second
  omega

/-- The bytes from `place` on are `count` zeros. -/
def Zeros (p : Bytes) (place count : Nat) : Prop :=
  ∀ index, place ≤ index → index < place + count → p.getD index 0 = 0

theorem zeros_replicate {place : Nat} (zeros : Zeros p place count)
    (inside : place + count ≤ p.length) :
    p.take place ++ List.replicate count 0 ++ p.drop (place + count) = p := by
  have run : (p.drop place).take count = List.replicate count 0 := by
    rw [eq_replicate_iff]
    constructor
    · rw [length_take, length_drop]
      omega
    · intro byte mem
      rcases mem_iff_getElem.mp mem with ⟨index, bound, isByte⟩
      rw [length_take, length_drop] at bound
      have isZero := zeros (place + index) (by omega) (by omega)
      rw [getD_eq_getElem _ _ (by omega)] at isZero
      rw [← isByte, getElem_take, getElem_drop]
      exact isZero
  rw [← run, append_assoc, ← drop_drop, take_append_drop, take_append_drop]

def FoundRun (p : Bytes) (limit : Nat) (zero : Option Nat) (max : Nat) : Prop :=
  ∀ place, zero = some place →
    place % 2 = 0 ∧ place + 2 * max ≤ limit ∧ 2 ≤ max ∧ Zeros p place (2 * max)

/-- The search before the word at `i`: the `n` words before it are zero. -/
structure Searched (p : Bytes) (i : Nat) (runs : Runs) : Prop where
  found : FoundRun p i runs.zero runs.max
  positive : 1 ≤ runs.max
  within : 2 * runs.n ≤ i
  last : runs.n ≠ 0 → runs.last = some (i - 2 * runs.n)
  zeros : Zeros p (i - 2 * runs.n) (2 * runs.n)

theorem close_run_found (even : i % 2 = 0) (searched : Searched p i runs) :
    FoundRun p i (closeRun runs).zero (closeRun runs).max ∧ 1 ≤ (closeRun runs).max := by
  have within := searched.within
  have pos := searched.positive
  unfold closeRun
  split_ifs with longer
  · constructor
    · intro place isPlace
      rw [searched.last (by omega)] at isPlace
      cases isPlace
      dsimp only
      exact ⟨by omega, by omega, by omega, searched.zeros⟩
    · exact le_of_lt (lt_of_le_of_lt pos longer)
  · exact ⟨searched.found, pos⟩

theorem found_run_later {limit : Nat} (later : i ≤ limit)
    (found : FoundRun p i zero max) : FoundRun p limit zero max := by
  intro place isPlace
  rcases found place isPlace with ⟨even, within, long, zeros⟩
  exact ⟨even, le_trans within later, long, zeros⟩

theorem run_turn_searched (even : i % 2 = 0) (searched : Searched p i runs) :
    Searched p (i + 2) (runTurn p runs i) := by
  have within := searched.within
  unfold runTurn
  by_cases nonzero : p.getD i 0 ≠ 0 ∨ p.getD (i + 1) 0 ≠ 0
  · rw [if_pos nonzero]
    rcases close_run_found even searched with ⟨found, pos⟩
    constructor
    · exact found_run_later (Nat.le_add_right i 2) found
    · exact pos
    · exact Nat.zero_le _
    · intro some_
      cases some_ rfl
    · intro index from_ upTo
      change index < i + 2 - 0 + 0 at upTo
      change i + 2 - 0 ≤ index at from_
      omega
  · rw [if_neg nonzero]
    rw [not_or, not_not, not_not] at nonzero
    constructor
    · exact found_run_later (Nat.le_add_right i 2) searched.found
    · exact searched.positive
    · change 2 * (runs.n + 1) ≤ i + 2
      omega
    · intro _
      change (if runs.n = 0 then some i else runs.last) = some (i + 2 - 2 * (runs.n + 1))
      split_ifs with isFirst
      · rw [isFirst]
        rfl
      · rw [searched.last isFirst]
        congr 1
        omega
    · intro index from_ upTo
      change i + 2 - 2 * (runs.n + 1) ≤ index at from_
      change index < i + 2 - 2 * (runs.n + 1) + 2 * (runs.n + 1) at upTo
      by_cases before : index < i
      · exact searched.zeros index (by omega) (by omega)
      · have isEither : index = i ∨ index = i + 1 := by omega
        rcases isEither with rfl | rfl
        · exact nonzero.1
        · exact nonzero.2

theorem find_run_found (p : Bytes) :
    FoundRun p 16 (findRun p).zero (findRun p).max ∧ 1 ≤ (findRun p).max := by
  have start : Searched p 0 {} := by
    constructor
    · intro place isPlace
      cases isPlace
    · decide
    · decide
    · intro some_
      cases some_ rfl
    · intro index _ upTo
      exact absurd upTo (by simp)
  have second := run_turn_searched rfl start
  have third := run_turn_searched rfl second
  have fourth := run_turn_searched rfl third
  have fifth := run_turn_searched rfl fourth
  have sixth := run_turn_searched rfl fifth
  have seventh := run_turn_searched rfl sixth
  have eighth := run_turn_searched rfl seventh
  have whole := run_turn_searched rfl eighth
  exact close_run_found rfl whole

end Words

section Printed

variable {p : Bytes} {zero : Option Nat} {max : Nat}

/-- The reader where the printer has printed the words before `i`: in front of the run, or
behind it. -/
structure Reading (p : Bytes) (zero : Option Nat) (max i : Nat) (st : Inet6) : Prop where
  noNibbles : st.nibbles = 0
  noWord : st.word = 0
  progress :
    (st.zero = none ∧ st.addr = p.take i ∧ st.n = 8 - i / 2 ∧
      ∀ place, zero = some place → i ≤ place) ∨
    ∃ place, zero = some place ∧ place + 2 * max ≤ i ∧ st.zero = some place ∧
      st.addr = p.take place ++ (p.drop (place + 2 * max)).take (i - (place + 2 * max)) ∧
      st.n = 8 - (i / 2 - max)

theorem read_printed_word (noNibbles : st.nibbles = 0) (noWord : st.word = 0) {i : Nat} :
    ∃ nibbles, nibbles ≠ 0 ∧
      inet6Loop st (hexadecimal ((p.getD i 0).toNat * 256 + (p.getD (i + 1) 0).toNat) ++ rest) =
        inet6Loop { st with
          nibbles := nibbles
          word := (p.getD i 0).toNat * 256 + (p.getD (i + 1) 0).toNat } rest := by
  have unchanged : st = { st with nibbles := 0, word := 0 } := by
    cases st
    simp only at noNibbles noWord
    rw [noNibbles, noWord]
  have read := read_word st (word_le (p.getD i 0) (p.getD (i + 1) 0)) rest
  rw [← unchanged] at read
  have some_ : (hexadecimal ((p.getD i 0).toNat * 256 + (p.getD (i + 1) 0).toNat)).length ≠ 0 :=
    fun none_ => hexadecimal_ne_nil (eq_nil_of_length_eq_zero none_)
  exact ⟨_, some_, read⟩

theorem behind_two (size : p.length = 16) (inside : i + 1 < 16) (order : place ≤ i) :
    (p.drop place).take (i - place) ++ [p.getD i 0, p.getD (i + 1) 0] =
      (p.drop place).take (i + 2 - place) := by
  have longer : i - place + 1 < (p.drop place).length := by
    rw [length_drop]
    omega
  have two := take_two longer
  have first : (p.drop place).getD (i - place) 0 = p.getD i 0 := by
    rw [getD_eq_getElem?_getD, getD_eq_getElem?_getD, getElem?_drop, Nat.add_sub_cancel' order]
  have second : (p.drop place).getD (i - place + 1) 0 = p.getD (i + 1) 0 := by
    rw [getD_eq_getElem?_getD, getD_eq_getElem?_getD, getElem?_drop,
      ← add_assoc, Nat.add_sub_cancel' order]
  rw [first, second] at two
  have count : i - place + 2 = i + 2 - place := by omega
  rw [← count, two]

theorem reading_colon (size : p.length = 16) (even : i % 2 = 0) (inside : i < 14)
    (found : FoundRun p 16 zero max) (notRun : some i ≠ zero) (reading : Reading p zero max i st)
    (some_ : nibbles ≠ 0) : ∃ next, Reading p zero max (i + 2) next ∧ next.digit = some rest ∧
      inet6Loop { st with
        nibbles := nibbles
        word := (p.getD i 0).toNat * 256 + (p.getD (i + 1) 0).toNat } (colon :: rest) =
        inet6Loop next rest := by
  have remains : st.n - 1 ≠ 0 := by
    rcases reading.progress with ⟨-, -, count, -⟩ | ⟨place, -, within, -, -, count⟩ <;> omega
  let next : Inet6 := { st with
    digit := some rest
    addr := st.addr ++ [p.getD i 0, p.getD (i + 1) 0]
    n := st.n - 1
    nibbles := 0
    word := 0 }
  have went : inet6Loop { st with
      nibbles := nibbles
      word := (p.getD i 0).toNat * 256 + (p.getD (i + 1) 0).toNat } (colon :: rest) =
      inet6Loop next rest := by
    rw [inet6Loop, if_pos rfl, if_pos some_, if_pos remains, word_bytes_back]
  apply Exists.intro next
  refine ⟨⟨rfl, rfl, ?_⟩, rfl, went⟩
  rcases reading.progress with ⟨noZero, written, count, ahead⟩ |
    ⟨place, isPlace, within, isZero, written, count⟩
  · apply Or.inl
    refine ⟨noZero, ?_, ?_, ?_⟩
    · change st.addr ++ _ = _
      rw [written, take_two (by omega)]
    · change st.n - 1 = _
      omega
    · intro place isPlace
      have differs : i ≠ place := fun same => notRun (by rw [same, isPlace])
      have evenPlace := (found place isPlace).1
      have order := ahead place isPlace
      omega
  · apply Or.inr
    refine ⟨place, isPlace, by omega, isZero, ?_, ?_⟩
    · change st.addr ++ _ = _
      rw [written, append_assoc, behind_two size (by omega) within]
    · change st.n - 1 = _
      omega

theorem finish_last_word (size : p.length = 16) (found : FoundRun p 16 zero max)
    (reading : Reading p zero max 14 st) (some_ : nibbles ≠ 0) : inet6Finish { st with
      nibbles := nibbles
      word := (p.getD 14 0).toNat * 256 + (p.getD 15 0).toNat } = some p := by
  unfold inet6Finish
  rw [if_neg (fun both => some_ both.1)]
  simp only [word_bytes_back]
  rcases reading.progress with ⟨noZero, written, count, -⟩ |
    ⟨place, isPlace, within, isZero, written, count⟩
  · rw [if_neg (by omega), if_pos noZero, written, ← take_two (by omega), take_of_length_le]
    omega
  · rcases found place isPlace with ⟨-, -, long, zeros⟩
    have rest : (p.drop (place + 2 * max)).take (14 + 2 - (place + 2 * max)) =
        p.drop (place + 2 * max) := by
      apply take_of_length_le
      rw [length_drop]
      omega
    have whole : st.addr ++ [p.getD 14 0, p.getD 15 0] =
        p.take place ++ p.drop (place + 2 * max) := by
      rw [written, append_assoc, behind_two size (by omega) within, rest]
    have cut : (p.take place).length = place := by
      rw [length_take]
      omega
    have missing : (st.n - 1) * 2 = 2 * max := by omega
    rw [if_pos (by omega), isZero]
    simp only [Option.some.injEq]
    rw [whole, take_left' cut, drop_left' cut, missing]
    exact zeros_replicate zeros (by omega)

theorem finish_run (size : p.length = 16)
    (found : FoundRun p 16 zero max) (isPlace : zero = some place) (atEnd : place + 2 * max = 16)
    (reading : Reading p zero max 16 st) (isZero : st.zero = some place) : inet6Finish st = some p := by
  rcases found place isPlace with ⟨-, -, long, zeros⟩
  rcases reading.progress with ⟨noZero, -⟩ | ⟨other, isOther, within, -, written, count⟩
  · rw [noZero] at isZero
    cases isZero
  · cases isPlace.symm.trans isOther
    have nothing : p.drop (place + 2 * max) = [] := by
      rw [atEnd, ← size, drop_length]
    have cut : (p.take place).length = place := by
      rw [length_take]
      omega
    have missing : List.replicate ((st.n - 1) * 2) (0 : Byte) ++ wordBytes 0 =
        List.replicate (2 * max) 0 := by
      have two : wordBytes 0 = List.replicate 2 0 := by decide
      rw [two, replicate_append_replicate]
      congr 1
      omega
    have all := zeros_replicate zeros (by omega)
    rw [nothing, append_nil] at all
    unfold inet6Finish
    rw [if_neg (by rw [isZero]; simp), if_pos (by omega), isZero, reading.noWord, written, nothing,
      take_nil, append_nil]
    simp only [Option.some.injEq]
    rw [take_left' cut, drop_left' cut, append_assoc, missing]
    exact all

theorem print_nothing (beyond : n ≤ i) : printWords p zero max n turns i = [] := by
  cases turns with
  | zero => rfl
  | succ turns => rw [printWords, if_neg (not_lt.mpr beyond)]

theorem read_printed (size : p.length = 16)
    (found : FoundRun p 16 zero max) (even : i % 2 = 0) (inside : i ≤ 16)
    (enough : 16 ≤ i + 2 * turns) (reading : Reading p zero max i st)
    (atEnd : i = 16 → ∃ place, zero = some place ∧ place + 2 * max = 16 ∧ st.zero = some place) :
    (inet6Loop st (printWords p zero max 16 turns i)).bind inet6Finish = some p := by
  induction turns generalizing i st with
  | zero =>
    have isEnd : i = 16 := by omega
    rcases atEnd isEnd with ⟨place, isPlace, reaches, isZero⟩
    subst isEnd
    exact finish_run size found isPlace reaches reading isZero
  | succ turns ih =>
    by_cases isEnd : i = 16
    · rcases atEnd isEnd with ⟨place, isPlace, reaches, isZero⟩
      subst isEnd
      exact finish_run size found isPlace reaches reading isZero
    · rw [printWords, if_pos (by omega)]
      by_cases isRun : some i = zero
      · rcases found i isRun.symm with ⟨-, within, long, -⟩
        rw [if_pos isRun]
        rcases reading.progress with ⟨noZero, written, count, -⟩ | ⟨place, isPlace, behind, -⟩
        · have offset : st.addr.length = i := by
            rw [written, length_take]
            omega
          have next : i + (max - 1) * 2 + 2 = i + 2 * max := by omega
          rw [inet6Loop, if_pos rfl, if_neg (by simp [reading.noNibbles]), if_pos noZero, offset, next]
          apply ih (by omega) within (by omega)
          · refine ⟨reading.noNibbles, reading.noWord, .inr ⟨i, isRun.symm, le_rfl, rfl, ?_, ?_⟩⟩
            · rw [written, Nat.sub_self, take_zero, append_nil]
            · change st.n = _
              omega
          · intro reaches
            exact ⟨i, isRun.symm, reaches, rfl⟩
        · rw [isPlace] at isRun
          cases isRun
          omega
      · rw [if_neg isRun, append_assoc]
        rcases read_printed_word reading.noNibbles reading.noWord with
          ⟨nibbles, some_, read⟩
        rw [read]
        by_cases isLast : i < 14
        · rw [if_pos isLast]
          rcases reading_colon size even isLast found isRun reading some_ with ⟨next, nextReading, -, went⟩
          rw [singleton_append, went]
          exact ih (by omega) (by omega) (by omega) nextReading (by omega)
        · have isFourteen : i = 14 := by omega
          subst isFourteen
          rw [if_neg isLast, print_nothing (le_refl 16), append_nil, inet6Loop, Option.bind_some]
          exact finish_last_word size found reading some_

end Printed

def DottedForm (p : Bytes) : Prop :=
  (findRun p).zero = some 0 ∧
    (((findRun p).max = 5 ∧ p.getD 10 0 = 0xff ∧ p.getD 11 0 = 0xff) ∨ (findRun p).max = 6 ∨
      ((findRun p).max = 7 ∧ p.getD 14 0 ≠ 0 ∧ p.getD 15 0 ≠ 1))

instance (p : Bytes) : Decidable (DottedForm p) := inferInstanceAs (Decidable (_ ∧ _))

def embedded (p : Bytes) : InAddr := ⟨p.getD 12 0, p.getD 13 0, p.getD 14 0, p.getD 15 0⟩

section Ntop

variable {p : Bytes} {len : Nat}

theorem head_without (nonempty : front ≠ []) (absent : c ∉ front) : (front ++ rest).head? ≠ some c := by
  intro isHead
  cases front with
  | nil => exact nonempty rfl
  | cons first others =>
    rw [cons_append, head?_cons, Option.some.injEq] at isHead
    exact absent (by simp [isHead])

theorem hexadecimal_without (other : ∀ value < 16, hexDigit value ≠ c) : c ∉ hexadecimal number := by
  intro mem
  rcases mem_numeral (by decide) mem with ⟨value, isHex, same⟩
  exact other value isHex same.symm

theorem decimal_without (other : ∀ value < 10, decimalDigit value ≠ c) : c ∉ decimal number := by
  intro mem
  rcases decimal_digits number c mem with ⟨value, isDecimal, same⟩
  exact other value isDecimal same.symm

theorem reading_start : Reading p zero max 0 {} :=
  ⟨rfl, rfl, .inl ⟨rfl, rfl, rfl, fun _ _ => Nat.zero_le _⟩⟩

theorem ntop_eq (room : ngxInet6Addrstrlen ≤ len) :
    ngxInet6Ntop p len = (if (findRun p).zero = some 0 then [colon] else []) ++
      (if DottedForm p then printWords p (findRun p).zero (findRun p).max 12 8 0 ++
        dotted (p.getD 12 0) (p.getD 13 0) (p.getD 14 0) (p.getD 15 0)
      else printWords p (findRun p).zero (findRun p).max 16 8 0) := by
  rw [ngxInet6Ntop, if_neg (not_lt.mpr room)]
  by_cases isDotted : DottedForm p
  · have isForm := isDotted
    unfold DottedForm at isForm
    simp only [if_pos isForm, if_pos isDotted, if_true, append_assoc]
  · have isForm := isDotted
    unfold DottedForm at isForm
    have differs : ¬ (16 = 12) := by decide
    simp only [if_neg isForm, if_neg isDotted, if_neg differs, append_nil]

theorem print_first_word {zero : Option Nat} {max : Nat} (notFirst : zero ≠ some 0) :
    printWords p zero max 16 8 0 = hexadecimal ((p.getD 0 0).toNat * 256 + (p.getD (0 + 1) 0).toNat) ++
        ([colon] ++ printWords p zero max 16 7 2) := by
  rw [printWords, if_pos (by decide), if_neg (Ne.symm notFirst), if_pos (by decide), append_assoc]

theorem colon_mem_ntop (room : ngxInet6Addrstrlen ≤ len) : colon ∈ ngxInet6Ntop p len := by
  rw [ntop_eq room]
  by_cases atStart : (findRun p).zero = some 0
  · rw [if_pos atStart]
    exact mem_append_left _ (mem_singleton.mpr rfl)
  · rw [if_neg atStart, if_neg fun isDotted : DottedForm p => atStart isDotted.1,
      print_first_word atStart]
    simp

theorem plain_read_back (size : p.length = 16) (room : ngxInet6Addrstrlen ≤ len)
    (plain : ¬ DottedForm p) : ngxInet6Addr (ngxInet6Ntop p len) = some p := by
  have found := (find_run_found p).1
  have read := read_printed size found (show 0 % 2 = 0 from rfl) (Nat.zero_le 16)
    (show 16 ≤ 0 + 2 * 8 by decide) reading_start
    (fun atEnd => absurd atEnd (by decide))
  rw [ntop_eq room, if_neg plain]
  by_cases atStart : (findRun p).zero = some 0
  · rw [if_pos atStart, singleton_append, ngxInet6Addr, if_neg (by simp)]
    exact read
  · rw [if_neg atStart, nil_append]
    have starts := @print_first_word p _ (findRun p).max atStart
    have notColon : (printWords p (findRun p).zero (findRun p).max 16 8 0).head? ≠ some colon := by
      rw [starts]
      exact head_without hexadecimal_ne_nil (hexadecimal_without
        (fun value isHex => (hex_digit_facts value isHex).2.2.1))
    have notEmpty : (printWords p (findRun p).zero (findRun p).max 16 8 0).length ≠ 0 := by
      rw [starts]
      simp
    rw [ngxInet6Addr, if_neg notEmpty, if_neg notColon]
    exact read

theorem last_four (size : p.length = 16) :
    p.drop 12 = [p.getD 12 0, p.getD 13 0, p.getD 14 0, p.getD 15 0] := by
  have first := behind_two size (show 12 + 1 < 16 by decide) (le_refl 12)
  have second := behind_two size (show 14 + 1 < 16 by decide) (show 12 ≤ 14 by decide)
  have whole : (p.drop 12).take (14 + 2 - 12) = p.drop 12 := by
    apply take_of_length_le
    rw [length_drop]
    omega
  rw [whole, ← first] at second
  exact second.symm

theorem zeros_in_front (zeros : Zeros p 0 count) (inside : count ≤ p.length) :
    List.replicate count 0 ++ p.drop count = p := by
  have front := zeros_replicate zeros (by omega)
  rw [take_zero, nil_append, zero_add] at front
  exact front

theorem read_two_colons (rest : Bytes) : ngxInet6Addr (colon :: colon :: rest) =
      (inet6Loop { digit := some rest, zero := some 0 } rest).bind inet6Finish := by
  rw [ngxInet6Addr, if_neg (by simp)]
  simp only [head?_cons, if_true, tail_cons]
  rfl

theorem dotted_text (room : ngxInet6Addrstrlen ≤ len) (isDotted : DottedForm p) :
    ngxInet6Ntop p len = colon :: colon ::
      (printWords p (some 0) (findRun p).max 12 7 (2 * (findRun p).max) ++
        dotted (p.getD 12 0) (p.getD 13 0) (p.getD 14 0) (p.getD 15 0)) := by
  have pos := (find_run_found p).2
  have next : 0 + ((findRun p).max - 1) * 2 + 2 = 2 * (findRun p).max := by omega
  rw [ntop_eq room, if_pos isDotted, if_pos isDotted.1, isDotted.1, printWords, if_pos (by decide),
    if_pos rfl, next]
  rfl

theorem dotted_form_read (size : p.length = 16) (room : ngxInet6Addrstrlen ≤ len) (isDotted : DottedForm p) :
    ngxInet6Addr (ngxInet6Ntop p len) = if embedded p = inaddrNone then none else some p := by
  have found := (find_run_found p).1
  rw [isDotted.1] at found
  have zeros := (found 0 rfl).2.2.2
  rw [dotted_text room isDotted, read_two_colons]
  rcases isDotted with ⟨-, forms⟩
  by_cases isFive : (findRun p).max = 5
  · rw [isFive] at zeros found ⊢
    have front : List.replicate 10 0 ++ p.drop 10 = p := zeros_in_front zeros (by omega)
    have text : printWords p (some 0) 5 12 7 (2 * 5) ++
        dotted (p.getD 12 0) (p.getD 13 0) (p.getD 14 0) (p.getD 15 0) =
        hexadecimal ((p.getD 10 0).toNat * 256 + (p.getD (10 + 1) 0).toNat) ++
          colon :: dotted (p.getD 12 0) (p.getD 13 0) (p.getD 14 0) (p.getD 15 0) := by
      rw [printWords, if_pos (by decide), if_neg (by decide), if_pos (by decide),
        print_nothing (by decide), append_nil, append_assoc]
      rfl
    rw [text]
    have reading : ∀ whole, Reading p (some 0) 5 10 { digit := some whole, zero := some 0 } :=
      fun _ => ⟨rfl, rfl, .inr ⟨0, rfl, by decide, rfl, rfl, rfl⟩⟩
    rcases read_printed_word (reading _).noNibbles (reading _).noWord with
      ⟨nibbles, some_, read⟩
    rcases reading_colon size rfl (by decide) found (by decide) (reading _) some_ with
      ⟨next, nextReading, isDigit, went⟩
    rw [read, went]
    rcases nextReading.progress with ⟨-, -, -, ahead⟩ | ⟨place, isPlace, -, isZero, written, count⟩
    · exact absurd (ahead 0 rfl) (by decide)
    · cases isPlace
      have seven : next.n = 7 := count
      have rest : next.addr ++ p.drop 12 = p.drop 10 := by
        rw [written, take_zero, nil_append]
        have split := take_append_drop 2 (p.drop 10)
        rw [drop_drop] at split
        exact split
      rw [read_dotted_end nextReading.noNibbles isDigit (by rw [seven]; decide) isZero
        (by rw [seven]; decide), ← last_four size, rest, seven, take_zero, nil_append,
        drop_zero, front]
      rfl
  · have beyond : 12 ≤ 2 * (findRun p).max := by
      rcases forms with ⟨five, -⟩ | six | ⟨seven, -⟩ <;> omega
    have front : List.replicate 12 0 ++ p.drop 12 = p := by
      apply zeros_in_front _ (by omega)
      intro index from_ upTo
      exact zeros index from_ (by omega)
    have two : 2 ≤ 8 := by decide
    have notTwo : 8 ≠ 2 := by decide
    rw [print_nothing beyond, nil_append, read_dotted_end rfl rfl two rfl notTwo]
    simp only [take_zero, nil_append, drop_zero]
    rw [← last_four size, front]
    rfl

/-- The two IPv6 addresses with the error value of `ngx_inet_addr` in a dotted end. -/
def mappedNone : Bytes := List.replicate 10 0 ++ List.replicate 6 255

def compatibleNone : Bytes := List.replicate 12 0 ++ List.replicate 4 255

theorem embedded_none_iff (size : p.length = 16) :
    DottedForm p ∧ embedded p = inaddrNone ↔ p = mappedNone ∨ p = compatibleNone := by
  constructor
  · rintro ⟨⟨atStart, forms⟩, isNone⟩
    have found := (find_run_found p).1
    rw [atStart] at found
    have zeros := (found 0 rfl).2.2.2
    have ends : p.drop 12 = List.replicate 4 255 := by
      rw [last_four size]
      unfold embedded inaddrNone at isNone
      simp only [InAddr.mk.injEq] at isNone
      rw [isNone.1, isNone.2.1, isNone.2.2.1, isNone.2.2.2]
      rfl
    rcases forms with ⟨five, first, second⟩ | six | ⟨seven, -⟩
    · rw [five] at zeros
      have front := zeros_in_front zeros (by omega)
      have two := behind_two size (show 10 + 1 < 16 by decide) (le_refl 10)
      have split := take_append_drop 2 (p.drop 10)
      rw [Nat.sub_self, take_zero, nil_append, first, second] at two
      rw [drop_drop] at split
      apply Or.inl
      rw [← front, ← split]
      rw [← two, ends]
      rfl
    · rw [six] at zeros
      have front := zeros_in_front zeros (by omega)
      apply Or.inr
      rw [← front]
      rw [ends]
      rfl
    · rw [seven] at zeros
      have isZero := zeros 12 (by decide) (by decide)
      unfold embedded inaddrNone at isNone
      simp only [InAddr.mk.injEq] at isNone
      rw [isZero] at isNone
      exact absurd isNone.1 (by decide)
  · rintro (rfl | rfl) <;> decide

theorem inet6_read_back (size : p.length = 16) (room : ngxInet6Addrstrlen ≤ len) :
    ngxInet6Addr (ngxInet6Ntop p len) =
      if p = mappedNone ∨ p = compatibleNone then none else some p := by
  by_cases isDotted : DottedForm p
  · rw [dotted_form_read size room isDotted]
    by_cases isNone : embedded p = inaddrNone
    · rw [if_pos isNone, if_pos ((embedded_none_iff size).mp ⟨isDotted, isNone⟩)]
    · rw [if_neg isNone, if_neg fun named => isNone ((embedded_none_iff size).mpr named).2]
  · rw [plain_read_back size room isDotted,
      if_neg fun named => isDotted ((embedded_none_iff size).mpr named).1]

theorem decimal_hex_digit : ∀ value < 10, decimalDigit value = hexDigit value := by
  decide

def NumberByte (c : Byte) : Prop := c = dot ∨ ∃ value < 16, c = hexDigit value

theorem hexadecimal_bytes (mem : c ∈ hexadecimal number) : NumberByte c :=
  .inr (mem_numeral (by decide) mem)

theorem dotted_bytes (mem : c ∈ dotted b0 b1 b2 b3) : NumberByte c := by
  have inDecimal : ∀ byte : Byte, c ∈ decimal byte.toNat → NumberByte c := by
    intro byte mem
    obtain ⟨value, small, same⟩ := decimal_digits _ c mem
    rw [decimal_hex_digit value small] at same
    exact .inr ⟨value, by omega, same⟩
  simp only [dotted, append_assoc, cons_append, mem_append, mem_cons] at mem
  rcases mem with mem | isDot | mem | isDot | mem | isDot | mem
  · exact inDecimal _ mem
  · exact .inl isDot
  · exact inDecimal _ mem
  · exact .inl isDot
  · exact inDecimal _ mem
  · exact .inl isDot
  · exact inDecimal _ mem

theorem print_words_bytes (mem : c ∈ printWords p zero max n turns i) : c = colon ∨ NumberByte c := by
  induction turns generalizing i with
  | zero => cases mem
  | succ turns ih =>
    rw [printWords] at mem
    split_ifs at mem
    · rcases mem_cons.mp mem with isColon | later
      · exact .inl isColon
      · exact ih later
    · rcases mem_append.mp mem with front | later
      · rcases mem_append.mp front with word | isColon
        · exact .inr (hexadecimal_bytes word)
        · exact .inl (mem_singleton.mp isColon)
      · exact ih later
    · rw [append_nil] at mem
      rcases mem_append.mp mem with word | later
      · exact .inr (hexadecimal_bytes word)
      · exact ih later
    · cases mem

theorem ntop_bytes (mem : c ∈ ngxInet6Ntop p len) : c = colon ∨ NumberByte c := by
  by_cases short : len < ngxInet6Addrstrlen
  · rw [ngxInet6Ntop, if_pos short] at mem
    cases mem
  · rw [ntop_eq (not_lt.mp short)] at mem
    rcases mem_append.mp mem with first | words
    · split_ifs at first
      · exact .inl (mem_singleton.mp first)
      · cases first
    · split_ifs at words
      · rcases mem_append.mp words with word | isDotted
        · exact print_words_bytes word
        · exact .inr (dotted_bytes isDotted)
      · exact print_words_bytes words

theorem ntop_without_bracket {len : Nat} : ']'.toUInt8 ∉ ngxInet6Ntop p len := by
  intro mem
  rcases ntop_bytes mem with isColon | isDot | ⟨value, isHex, same⟩
  · exact absurd isColon (by decide)
  · exact absurd isDot (by decide)
  · exact (hex_digit_facts value isHex).2.2.2 same.symm

end Ntop

theorem dotted_without (other : ∀ value < 10, decimalDigit value ≠ c) (notDot : dot ≠ c)
    : c ∉ dotted b0 b1 b2 b3 := by
  simp [dotted, decimal_without other, notDot.symm]

theorem port_read_back (small : port ≤ 65535) : ngxAtoi (decimal port) = some port := by
  have notEmpty : (decimal port).length ≠ 0 := fun none_ =>
    decimal_ne_nil (eq_nil_of_length_eq_zero none_)
  have reads : ∀ taken value next behind, next < 10 → taken < 5 → value * 10 + next ≤ 65535 →
      atoiLoop value (decimalDigit next :: behind) = atoiLoop (value * 10 + next) behind := by
    intro taken value next behind isDecimal _ bounded
    rcases decimal_digit_facts next isDecimal with ⟨isDigit, isValue, -⟩
    have below : ¬ (value ≥ maxIntT / 10 ∧ (value > maxIntT / 10 ∨ next > maxIntT % 10)) := by
      have large : 65535 < maxIntT / 10 := by decide
      omega
    rw [atoiLoop, isDigit, isValue, if_neg below]
    rfl
  have read : atoiLoop 0 (decimal port ++ []) = atoiLoop port [] :=
    read_numeral (fun _ value => atoiLoop value) (by decide) reads small
    (lt_of_le_of_lt small (by decide))
    (length_numeral (by decide) (lt_of_le_of_lt small (by decide))) []
  rw [ngxAtoi, if_neg notEmpty]
  rw [append_nil] at read
  exact read

theorem drop_to_first (absent : c ∉ front) (rest : Bytes) :
    ngxStrlchr (front ++ c :: rest) c = c :: rest := by
  rw [ngxStrlchr, dropWhile_append_of_pos, dropWhile_cons_of_neg (by simp)]
  intro other mem
  simpa using fun same : other = c => absent (same ▸ mem)

theorem parse_port_text {alloc : Bool} (pos : 1 ≤ port)
    (small : port ≤ 65535) (cut : text.take (text.length - ((decimal port).length + 1)) = front) :
    parsePort alloc text (decimal port) =
      match ngxParseAddr alloc front with
      | .ngxOk sockaddr => .ngxOk (ngxInetSetPort sockaddr port)
      | .ngxDeclined => .ngxDeclined
      | .ngxError => .ngxError := by
  have inRange : ¬(port < 1 ∨ port > 65535) := by omega
  subst cut
  rw [parsePort, port_read_back small]
  refine (if_neg inRange).trans ?_
  cases ngxParseAddr alloc (text.take (text.length - ((decimal port).length + 1))) <;> rfl

theorem inet_foreign (mem : c ∈ text) (notDigit : isDigit c = false)
    (notDot : c ≠ dot) : ngxInetAddr text = inaddrNone := by
  have fails : ∀ addr octet n, inetLoop addr octet n text = inaddrNone := by
    induction text with
    | nil => cases mem
    | cons other text ih =>
      intro addr octet n
      rw [inetLoop]
      by_cases isHere : c = other
      · rw [← isHere, notDigit, if_neg (by decide), if_neg notDot]
      · have behind : c ∈ text := (mem_cons.mp mem).resolve_left isHere
        simp [ih behind]
  exact fails 0 0 0

theorem inet6_declines_dot : ngxInet6Addr (decimal byte.toNat ++ dot :: rest) = none := by
  have notColon : (decimal byte.toNat ++ dot :: rest).head? ≠ some colon :=
    head_without decimal_ne_nil (decimal_without
      (fun value isDecimal => (decimal_digit_facts value isDecimal).2.2.2.1))
  have start : ({} : Inet6).nibbles = 0 := rfl
  rcases read_to_dot start byte rest with ⟨nibbles, word, -, read⟩
  rw [ngxInet6Addr, if_neg (by simp), if_neg notColon]
  simp only [read]
  rfl

theorem dotted_shape : ∃ others, dotted b0 b1 b2 b3 ++ rest = decimal b0.toNat ++ dot :: others := by
  simp only [dotted, append_assoc, cons_append]
  exact ⟨_, rfl⟩

theorem parse_inet (b0 b1 b2 b3 : Byte) : ngxParseAddr true (dotted b0 b1 b2 b3) =
      if (⟨b0, b1, b2, b3⟩ : InAddr) = inaddrNone then .ngxDeclined
      else .ngxOk (.inet ⟨b0, b1, b2, b3⟩ 0) := by
  rcases dotted_shape with ⟨others, isText⟩
  rw [append_nil] at isText
  have notInet6 : ngxInet6Addr (dotted b0 b1 b2 b3) = none := by
    rw [isText]
    exact inet6_declines_dot
  rw [ngxParseAddr, dotted_read_back, notInet6]
  by_cases isNone : (⟨b0, b1, b2, b3⟩ : InAddr) = inaddrNone
  · rw [if_pos isNone, if_neg (not_not.mpr isNone)]
  · rw [if_neg isNone, if_pos isNone, if_pos rfl]

theorem inet_text_declined (alloc : Bool) (b0 b1 b2 b3 : Byte) (rest : Bytes) :
    ngxParseAddr alloc (dotted b0 b1 b2 b3 ++ colon :: rest) = .ngxDeclined := by
  have hasColon : colon ∈ dotted b0 b1 b2 b3 ++ colon :: rest := by simp
  rcases dotted_shape with ⟨others, isText⟩
  rw [ngxParseAddr, inet_foreign hasColon (by decide) (by decide), isText,
    inet6_declines_dot, if_neg (by simp)]

theorem copy_back (addr : In6Addr) : copyInaddr6 addr.val = addr := by
  apply Subtype.ext
  change (addr.val ++ List.replicate 16 0).take 16 = addr.val
  rw [take_append_of_le_length (le_of_eq addr.property.symm), take_of_length_le]
  exact le_of_eq addr.property

theorem parse_inet6 (room : ngxInet6Addrstrlen ≤ len) :
    ngxParseAddr true (ngxInet6Ntop addr.val len) =
      if addr.val = mappedNone ∨ addr.val = compatibleNone then .ngxDeclined
      else .ngxOk (.inet6 addr 0) := by
  rw [ngxParseAddr, inet_foreign (colon_mem_ntop room) (by decide) (by decide), if_neg (by simp),
    inet6_read_back addr.property room]
  by_cases named : addr.val = mappedNone ∨ addr.val = compatibleNone
  · rw [if_pos named, if_pos named]
  · rw [if_neg named, if_neg named]
    simp [copy_back]

theorem inet6_text_declined (alloc : Bool) (rest : Bytes) :
    ngxParseAddr alloc ('['.toUInt8 :: rest) = .ngxDeclined := by
  have first : '['.toUInt8 ∈ '['.toUInt8 :: rest := List.mem_cons_self
  have notInet6 : ngxInet6Addr ('['.toUInt8 :: rest) = none := by
    have notHex : hexValue '['.toUInt8 = none := by decide
    have notColon : some '['.toUInt8 ≠ some colon := by decide
    rw [ngxInet6Addr, if_neg (by simp), List.head?_cons, if_neg notColon]
    simp only
    rfl
  rw [ngxParseAddr, inet_foreign first (by decide) (by decide), notInet6, if_neg (by simp)]

/-- `NGX_SOCKADDR_STRLEN` of a build without the addresses of local sockets; it is larger with
them. -/
def ngxSockaddrStrlen : Nat := ngxInet6Addrstrlen + "[]:65535".length

theorem inet_text_fits (small : port ≤ 65535)
    (room : ngxSockaddrStrlen ≤ len) : (dotted b0 b1 b2 b3 ++ colon :: decimal port).take len =
      dotted b0 b1 b2 b3 ++ colon :: decimal port := by
  have short0 := decimal_length b0
  have short1 := decimal_length b1
  have short2 := decimal_length b2
  have short3 := decimal_length b3
  have shortPort : (decimal port).length ≤ 5 :=
    length_numeral (by decide) (lt_of_le_of_lt small (by decide))
  have enough : 53 ≤ len := le_trans (by decide) room
  apply take_of_length_le
  simp only [dotted, length_append, length_cons]
  omega

theorem inet_port_back {addr : InAddr} (pos : 1 ≤ port) (small : port ≤ 65535)
    (room : ngxSockaddrStrlen ≤ len) : ngxParseAddrPort true (ngxSockNtop (.inet addr port) len true) =
      if addr = inaddrNone then .ngxDeclined else .ngxOk (.inet addr port) := by
  rcases addr with ⟨b0, b1, b2, b3⟩
  have noColon : colon ∉ dotted b0 b1 b2 b3 := dotted_without
    (fun value isDecimal => (decimal_digit_facts value isDecimal).2.2.2.1) (by decide)
  have noBracket : (dotted b0 b1 b2 b3 ++ colon :: decimal port).head? ≠ some '['.toUInt8 := by
    rcases dotted_shape with ⟨others, isText⟩
    rw [isText]
    apply head_without decimal_ne_nil
    exact decimal_without (by decide)
  have cut : (dotted b0 b1 b2 b3 ++ colon :: decimal port).take
      ((dotted b0 b1 b2 b3 ++ colon :: decimal port).length - ((decimal port).length + 1)) =
        dotted b0 b1 b2 b3 := by
    simp
  rw [ngxSockNtop]
  simp only [if_true, inet_text_fits small room]
  rw [ngxParseAddrPort, inet_text_declined]
  rw [if_neg noBracket, drop_to_first noColon]
  simp only
  rw [parse_port_text pos small cut, parse_inet]
  by_cases isNone : (⟨b0, b1, b2, b3⟩ : InAddr) = inaddrNone
  · rw [if_pos isNone, if_pos isNone]
  · rw [if_neg isNone, if_neg isNone]
    rfl

theorem inet6_port_back (pos : 1 ≤ port)
    (small : port ≤ 65535) (room : ngxInet6Addrstrlen ≤ len) :
    ngxParseAddrPort true (ngxSockNtop (.inet6 addr port) len true) =
      if addr.val = mappedNone ∨ addr.val = compatibleNone then .ngxDeclined
      else .ngxOk (.inet6 addr port) := by
  have shape : textBytes "[" ++ ngxInet6Ntop addr.val len ++ textBytes "]:" ++ decimal port =
      ('['.toUInt8 :: ngxInet6Ntop addr.val len) ++ ']'.toUInt8 :: colon :: decimal port := by
    simp only [append_assoc]
    rfl
  have noBracket : ']'.toUInt8 ∉ '['.toUInt8 :: ngxInet6Ntop addr.val len := fun mem =>
    (mem_cons.mp mem).elim (by decide) ntop_without_bracket
  have cut : ∀ text, text = (('['.toUInt8 :: ngxInet6Ntop addr.val len) ++
      ']'.toUInt8 :: colon :: decimal port) →
      (text.tail.take (text.length - 2)).take
        ((text.tail.take (text.length - 2)).length - ((decimal port).length + 1)) =
          ngxInet6Ntop addr.val len := by
    intro text isText
    have counts : (text.tail.take (text.length - 2)).length - ((decimal port).length + 1) =
        (ngxInet6Ntop addr.val len).length := by
      rw [isText]
      simp only [cons_append, tail_cons, length_take, length_append, length_cons]
      omega
    rw [counts, take_take, isText, cons_append, tail_cons, min_eq_left, take_left]
    simp only [length_append, length_cons]
    omega
  rw [ngxSockNtop]
  simp only [if_true, shape]
  rw [ngxParseAddrPort, cons_append, inet6_text_declined, ← cons_append]
  rw [if_pos (by simp), drop_to_first noBracket]
  simp only
  rw [if_neg (by simp), parse_port_text pos small (cut _ rfl), parse_inet6 room]
  by_cases named : addr.val = mappedNone ∨ addr.val = compatibleNone
  · rw [if_pos named, if_pos named]
  · rw [if_neg named, if_neg named]
    rfl

/-- The round trip of the text of an address: it fails for the address that is the error value
of `ngx_inet_addr`, alone or as a dotted end, and only there. -/
theorem address_text_read_back {port len : Nat} (pos : 1 ≤ port) (small : port ≤ 65535)
    (room : ngxSockaddrStrlen ≤ len) : (∀ addr : InAddr,
      ngxParseAddrPort true (ngxSockNtop (.inet addr port) len true) = .ngxOk (.inet addr port) ↔
        addr ≠ ⟨255, 255, 255, 255⟩) ∧ (∀ addr : In6Addr,
      ngxParseAddrPort true (ngxSockNtop (.inet6 addr port) len true) = .ngxOk (.inet6 addr port) ↔
        addr.val ≠ mappedNone ∧ addr.val ≠ compatibleNone) ∧ (∀ addr : In6Addr,
      ngxInet6Addr (ngxInet6Ntop addr.val len) = some addr.val ↔
        addr.val ≠ mappedNone ∧ addr.val ≠ compatibleNone) := by
  have room6 : ngxInet6Addrstrlen ≤ len := le_trans (by decide) room
  refine ⟨?_, ?_, ?_⟩
  · intro addr
    rw [inet_port_back pos small room]
    by_cases isNone : addr = inaddrNone
    · rw [if_pos isNone]
      exact ⟨nofun, fun other => absurd isNone other⟩
    · rw [if_neg isNone]
      exact ⟨fun _ => isNone, fun _ => rfl⟩
  · intro addr
    rw [inet6_port_back pos small room6, ← not_or]
    by_cases named : addr.val = mappedNone ∨ addr.val = compatibleNone
    · rw [if_pos named]
      exact ⟨nofun, fun other => absurd named other⟩
    · rw [if_neg named]
      exact ⟨fun _ => named, fun _ => rfl⟩
  · intro addr
    rw [inet6_read_back addr.property room6, ← not_or]
    by_cases named : addr.val = mappedNone ∨ addr.val = compatibleNone
    · rw [if_pos named]
      exact ⟨nofun, fun other => absurd named other⟩
    · rw [if_neg named]
      exact ⟨fun _ => named, fun _ => rfl⟩

theorem loopback_read_back :
    ngxParseAddrPort true (ngxSockNtop (.inet ⟨127, 0, 0, 1⟩ 80) ngxSockaddrStrlen true) =
        .ngxOk (.inet ⟨127, 0, 0, 1⟩ 80) ∧
      ngxInet6Addr (ngxInet6Ntop (List.replicate 15 0 ++ [1]) ngxSockaddrStrlen) =
        some (List.replicate 15 0 ++ [1]) := by
  have room : ngxSockaddrStrlen ≤ ngxSockaddrStrlen := le_rfl
  have pos : 1 ≤ 80 := by decide
  have small : 80 ≤ 65535 := by decide
  rcases address_text_read_back pos small room with ⟨inet, -, inet6⟩
  constructor
  · exact (inet ⟨127, 0, 0, 1⟩).mpr (by decide)
  · exact (inet6 ⟨List.replicate 15 0 ++ [1], rfl⟩).mpr (by decide)

/-- The broadcast address is printed, and then read as no address. -/
theorem broadcast_declined : ngxSockNtop (.inet ⟨255, 255, 255, 255⟩ 80) ngxSockaddrStrlen true =
        textBytes "255.255.255.255:80" ∧
      ngxParseAddrPort true (textBytes "255.255.255.255:80") = .ngxDeclined ∧
      ngxInet6Ntop mappedNone ngxSockaddrStrlen = textBytes "::ffff:255.255.255.255" ∧
      ngxInet6Addr (textBytes "::ffff:255.255.255.255") = none ∧
      ngxInet6Ntop compatibleNone ngxSockaddrStrlen = textBytes "::255.255.255.255" ∧
      ngxInet6Addr (textBytes "::255.255.255.255") = none := by
  decide

end ServerCore.NginxInetRoundTrip
