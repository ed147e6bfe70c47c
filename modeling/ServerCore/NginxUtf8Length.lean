import ServerCore.NginxUtf8Decoding

/-!
# When the length of a UTF-8 string stays inside of it

`ngx_utf8_length` gives the length of the whole string to the decoder at every
character, not what is left of it.
-/

namespace ServerCore.NginxUtf8Length

open NginxUtf8 NginxUtf8Decoding List

def following (lead : Byte) : Nat := if lead ≥ 0xf0 then 3 else if lead ≥ 0xe0 then 2 else 1

/-- Bytes that the decoder takes for characters, one after the other. -/
inductive Characters : Bytes → Prop where
  | nil : Characters []
  | ascii (c : Byte) (rest : Bytes) : c < 0x80 → Characters rest → Characters (c :: rest)
  | sequence (piece rest : Bytes) (value : Nat) :
      ngxUtf8Decode piece piece.length = some ⟨value, piece.length⟩ → value ≤ 0x10ffff →
        Characters rest → Characters (piece ++ rest)

/-- The string ends inside a sequence, behind characters, and the whole string is longer than what
is to follow the first byte of the sequence. -/
def CutOff (string : Bytes) : Prop :=
  ∃ front lead tail, string = front ++ lead :: tail ∧ Characters front ∧ 0xc2 ≤ lead ∧
    (∀ i ∈ tail, 0x80 ≤ i) ∧ tail.length < following lead ∧ following lead < string.length

/-- Whatever follows the string, the function returns one value without reading it, and on a
well-formed string that is the number of its characters. -/
structure Stays (string : Bytes) : Prop where
  inside : ∃ length, ∀ after, ngxUtf8Length (string ++ after) string.length = some length
  counts : ∀ chars : List Char, string = chars.flatMap String.utf8EncodeChar →
    ngxUtf8Length string string.length = some chars.length

section Decoding

variable {p more : Bytes} {n : Nat} {decoded : Decoded}

theorem decode_eq (c : Byte) (isLead : 0xc2 ≤ c) :
    ∃ valid u, ∀ n p, ngxUtf8Decode (c :: p) n = decodeFollowing valid (following c) u n p := by
  by_cases four : c ≥ 0xf0
  · exact ⟨_, _, fun n p => by rw [ngxUtf8Decode, if_pos four, following, if_pos four]⟩
  · by_cases three : c ≥ 0xe0
    · exact ⟨_, _, fun n p => by
        rw [ngxUtf8Decode, if_neg four, if_pos three, following, if_neg four, if_pos three]⟩
    · exact ⟨_, _, fun n p => by
        rw [ngxUtf8Decode, if_neg four, if_neg three, if_pos isLead, following, if_neg four, if_neg three]⟩

theorem follow_loop_none_iff {valid len u consumed : Nat} :
    followLoop valid len u consumed p = none ↔ p.length < len ∧ ∀ i ∈ p, 0x80 ≤ i := by
  induction p generalizing len u consumed with
  | nil =>
    cases len with
    | zero => simp [followLoop]
    | succ len => simp [followLoop]
  | cons i p ih =>
    cases len with
    | zero => simp [followLoop]
    | succ len =>
      rw [follow_loop_cons]
      split_ifs with low
      · have notTail : ¬ 0x80 ≤ i := UInt8.not_le.mpr low
        simp [notTail]
      · have isTail : 0x80 ≤ i := UInt8.not_lt.mp low
        rw [ih]
        simp [isTail]

theorem decode_none_iff {c : Byte} (pos : 1 ≤ n) : ngxUtf8Decode (c :: p) n = none ↔
      0xc2 ≤ c ∧ p.length < following c ∧ following c < n ∧ ∀ i ∈ p, 0x80 ≤ i := by
  by_cases isLead : 0xc2 ≤ c
  · obtain ⟨valid, u, decode⟩ := decode_eq c isLead
    rw [decode, decodeFollowing, if_neg (Nat.pos_iff_ne_zero.mp pos)]
    split_ifs with short
    · simp only [false_iff]
      omega
    · rw [follow_loop_none_iff]
      have enough : following c < n := by omega
      simp [isLead, enough]
  · have notFour : ¬ c ≥ 0xf0 := fun lead => isLead (UInt8.le_trans (by decide) lead)
    have notThree : ¬ c ≥ 0xe0 := fun lead => isLead (UInt8.le_trans (by decide) lead)
    rw [ngxUtf8Decode, if_neg notFour, if_neg notThree, if_neg isLead]
    simp [isLead]

end Decoding

section Loop

variable {n left len : Nat} {c : Byte} {rest : Bytes}

theorem loop_done (n : Nat) (p : Bytes) (len : Nat) : lengthLoop n p 0 len = some len := by
  rw [lengthLoop.eq_def, if_pos rfl]

theorem loop_ascii (low : c < 0x80) : lengthLoop n (c :: rest) (left + 1) len =
    lengthLoop n rest left (len + 1) := by
  rw [lengthLoop, if_neg (Nat.succ_ne_zero left)]
  rw [if_pos low, Nat.add_sub_cancel]

theorem loop_decoded {decoded : Decoded} (high : 0x80 ≤ c)
    (found : ngxUtf8Decode (c :: rest) n = some decoded) :
    lengthLoop n (c :: rest) (left + 1) len =
      if decoded.value > 0x10ffff then some n
      else lengthLoop n ((c :: rest).drop decoded.consumed) (left + 1 - decoded.consumed) (len + 1) := by
  rw [lengthLoop, if_neg (Nat.succ_ne_zero left)]
  rw [if_neg (UInt8.not_lt.mpr high)]
  split
  · next isNone =>
      rw [found] at isNone
      cases isNone
  · next other isSome =>
      rw [found] at isSome
      obtain rfl := Option.some.inj isSome
      split_ifs <;> rfl

theorem loop_outside (high : 0x80 ≤ c) (outside : ngxUtf8Decode (c :: rest) n = none) :
    lengthLoop n (c :: rest) (left + 1) len = none := by
  rw [lengthLoop, if_neg (Nat.succ_ne_zero left)]
  rw [if_neg (UInt8.not_lt.mpr high)]
  split
  · rfl
  · next other isSome =>
      rw [outside] at isSome
      cases isSome

end Loop

section Pieces

variable {p more : Bytes} {m n : Nat} {decoded : Decoded}

theorem taken_piece (taken : Taken p n decoded) :
    decoded.consumed ≤ p.length ∧ decoded.consumed ≤ n ∧
    Taken (p.take decoded.consumed) decoded.consumed decoded := by
  cases taken with
  | two c i rest n enough isLead below isTail =>
    exact ⟨by simp, enough, Taken.two c i [] 2 (by decide) isLead below isTail⟩
  | three c i j rest n enough isLead below isTail isTail' wide =>
    exact ⟨by simp, enough, Taken.three c i j [] 3 (by decide) isLead below isTail isTail' wide⟩
  | four c i j k rest n enough isLead isTail isTail' isTail'' wide bounded =>
    exact ⟨by simp, enough,
      Taken.four c i j k [] 4 (by decide) isLead isTail isTail' isTail'' wide bounded⟩

theorem taken_more (taken : Taken p m decoded) (larger : m ≤ n) : Taken (p ++ more) n decoded := by
  cases taken with
  | two c i rest m enough isLead below isTail =>
    exact Taken.two c i (rest ++ more) n (enough.trans larger) isLead below isTail
  | three c i j rest m enough isLead below isTail isTail' wide =>
    exact Taken.three c i j (rest ++ more) n (enough.trans larger) isLead below isTail isTail' wide
  | four c i j k rest m enough isLead isTail isTail' isTail'' wide bounded =>
    exact Taken.four c i j k (rest ++ more) n
      (enough.trans larger) isLead isTail isTail' isTail'' wide bounded

theorem taken_lead (taken : Taken p n decoded) : ∃ c rest, p = c :: rest ∧ 0x80 ≤ c := by
  cases taken with
  | two c i rest n enough isLead below isTail => exact ⟨c, _, rfl, UInt8.le_trans (by decide) isLead⟩
  | three c i j rest n enough isLead below isTail isTail' wide =>
    exact ⟨c, _, rfl, UInt8.le_trans (by decide) isLead⟩
  | four c i j k rest n enough isLead isTail isTail' isTail'' wide bounded =>
    exact ⟨c, _, rfl, UInt8.le_trans (by decide) isLead⟩

theorem loop_taken (taken : Taken p n decoded) (left len : Nat) :
    lengthLoop n p (left + decoded.consumed) len =
    lengthLoop n (p.drop decoded.consumed) left (len + 1) := by
  have found := taken_decode taken
  have range := taken_in_range taken
  have moves := decode_moves found (not_lt.mpr range.2)
  obtain ⟨c, rest, rfl, high⟩ := taken_lead taken
  obtain ⟨before, isBefore⟩ : ∃ before, left + decoded.consumed = before + 1 :=
    ⟨left + decoded.consumed - 1, by omega⟩
  rw [isBefore, loop_decoded high found, if_neg (not_lt.mpr range.2), ← isBefore, Nat.add_sub_cancel]

theorem characters_append {front back : Bytes} (isFront : Characters front) (isBack : Characters back) :
    Characters (front ++ back) := by
  induction isFront with
  | nil => exact isBack
  | ascii c rest low _ ih => exact Characters.ascii c _ low ih
  | sequence piece rest value found small _ ih =>
    rw [append_assoc]
    exact Characters.sequence piece _ value found small ih

theorem piece_taken {piece : Bytes} {value : Nat}
    (found : ngxUtf8Decode piece piece.length = some ⟨value, piece.length⟩)
    (small : value ≤ 0x10ffff) : Taken piece piece.length ⟨value, piece.length⟩ := by
  have nonempty : piece ≠ [] := by
    rintro rfl
    cases found
  exact decode_taken (length_pos_iff.mpr nonempty) found small

theorem loop_characters {front : Bytes} (isFront : Characters front) (fits : front.length ≤ n)
    {rest : Bytes} {left : Nat} (len : Nat) :
    ∃ count, lengthLoop n (front ++ rest) (left + front.length) len =
    lengthLoop n rest left (len + count) := by
  induction isFront generalizing len with
  | nil => exact ⟨0, rfl⟩
  | ascii c front low _ ih =>
    rw [length_cons] at fits
    obtain ⟨count, passed⟩ := ih (by omega) (len + 1)
    refine ⟨count + 1, ?_⟩
    rw [cons_append, length_cons, ← add_assoc, loop_ascii low, passed]
    congr 1
    omega
  | sequence piece front value found small _ ih =>
    rw [length_append] at fits
    obtain ⟨count, passed⟩ := ih (by omega) (len + 1)
    refine ⟨count + 1, ?_⟩
    have taken := @taken_more piece (front ++ rest) piece.length n _ (piece_taken found small) (by omega)
    have step := loop_taken taken (left + front.length) len
    have length : left + (piece ++ front).length = left + front.length + piece.length := by
      rw [length_append]
      omega
    rw [drop_left, passed] at step
    rw [append_assoc, length, step]
    congr 1
    omega

end Pieces

section Strings

variable {string : Bytes}

theorem loop_inside (whole : ¬ CutOff string) (front rest : Bytes) (split : string = front ++ rest)
    (isFront : Characters front) (len : Nat) :
    ∃ length, ∀ after, lengthLoop string.length (rest ++ after) rest.length len = some length := by
  induction size : rest.length using Nat.strong_induction_on generalizing front rest len with
  | _ many ih =>
    cases rest with
    | nil =>
      refine ⟨len, ?_⟩
      intro after
      rw [← size, length_nil, loop_done]
    | cons c rest =>
      have pos : 1 ≤ string.length := by
        rw [split, length_append, length_cons]
        omega
      rw [length_cons] at size
      by_cases low : c < 0x80
      · have isFront' := characters_append isFront (Characters.ascii c [] low Characters.nil)
        have split' : string = front ++ [c] ++ rest := by
          rw [split, append_assoc, singleton_append]
        obtain ⟨length, passed⟩ :=
          ih rest.length (by omega) (front ++ [c]) rest split' isFront' (len + 1) rfl
        refine ⟨length, ?_⟩
        intro after
        rw [← size, cons_append, loop_ascii low]
        exact passed after
      · have high : 0x80 ≤ c := UInt8.not_lt.mp low
        cases decodes : ngxUtf8Decode (c :: rest) string.length with
        | none =>
          exfalso
          have cut := (decode_none_iff pos).mp decodes
          exact whole ⟨front, c, rest, split, isFront, cut.1, cut.2.2.2, cut.2.1, cut.2.2.1⟩
        | some decoded =>
          have decodes' : ∀ after, ngxUtf8Decode (c :: (rest ++ after)) string.length = some decoded :=
            fun after => @decode_append string.length (c :: rest) after decoded decodes
          by_cases large : decoded.value > 0x10ffff
          · refine ⟨string.length, ?_⟩
            intro after
            rw [← size, cons_append, loop_decoded high (decodes' after), if_pos large]
          · have taken := decode_taken pos decodes (not_lt.mp large)
            have piece := taken_piece taken
            have moves := decode_moves decodes large
            have pieceLength : ((c :: rest).take decoded.consumed).length = decoded.consumed :=
              length_take_of_le piece.1
            have isPiece : Characters ((c :: rest).take decoded.consumed ++ []) := by
              refine Characters.sequence _ [] decoded.value ?_ (not_lt.mp large) Characters.nil
              rw [pieceLength]
              exact taken_decode piece.2.2
            rw [append_nil] at isPiece
            have split' : string = front ++ (c :: rest).take decoded.consumed ++
                (c :: rest).drop decoded.consumed := by
              rw [append_assoc, take_append_drop]
              exact split
            have left : ((c :: rest).drop decoded.consumed).length = many - decoded.consumed := by
              rw [length_drop, length_cons, size]
            obtain ⟨length, passed⟩ := ih (many - decoded.consumed) (by omega) _ _ split'
              (characters_append isFront isPiece) (len + 1) left
            refine ⟨length, ?_⟩
            intro after
            have rest' : many = many - decoded.consumed + decoded.consumed := by
              have bound := piece.1
              rw [length_cons, size] at bound
              omega
            have more := @taken_more (c :: rest) after string.length string.length decoded taken le_rfl
            rw [rest', loop_taken more, drop_append_of_le_length piece.1]
            exact passed after

theorem loop_cut_off (cut : CutOff string) : ngxUtf8Length string string.length = none := by
  obtain ⟨front, lead, tail, split, isFront, isLead, areTails, short, long⟩ := cut
  have fits : front.length ≤ string.length := by
    rw [split, length_append]
    omega
  have pos : 1 ≤ string.length := by
    rw [split, length_append, length_cons]
    omega
  have total : string.length = tail.length + 1 + front.length := by
    rw [split, length_append, length_cons]
    omega
  obtain ⟨count, passed⟩ := loop_characters isFront fits 0
  have outside := (@decode_none_iff tail string.length lead pos).mpr ⟨isLead, short, long, areTails⟩
  have high : 0x80 ≤ lead := UInt8.le_trans (by decide) isLead
  rw [ngxUtf8Length]
  conv_lhs =>
    arg 3
    rw [total]
  conv_lhs =>
    arg 2
    rw [split]
  rw [passed, loop_outside high outside]

theorem loop_counts (n : Nat) (chars : List Char)
    (fits : (chars.flatMap String.utf8EncodeChar).length ≤ n) (len : Nat) :
    lengthLoop n (chars.flatMap String.utf8EncodeChar) (chars.flatMap String.utf8EncodeChar).length len =
      some (len + chars.length) := by
  induction chars generalizing len with
  | nil => rw [flatMap_nil, length_nil, loop_done, length_nil, add_zero]
  | cons c chars ih =>
    rw [flatMap_cons, length_append] at fits
    rw [flatMap_cons, length_append, length_cons]
    have tail := ih (by omega) (len + 1)
    have count : len + 1 + chars.length = len + (chars.length + 1) := by omega
    by_cases large : 0x80 ≤ c.toNat
    · have taken := @encoding_taken n c large (chars.flatMap String.utf8EncodeChar) (by omega)
      have step := loop_taken taken (chars.flatMap String.utf8EncodeChar).length len
      rw [drop_left, tail, count] at step
      rw [add_comm]
      exact step
    · have isOne : String.utf8EncodeChar c = [UInt8.ofNat c.toNat] := by
        rw [encode_char, encodeNat, if_pos (by omega)]
      have low : UInt8.ofNat c.toNat < 0x80 := byte_of_nat_lt (show _ < 128 by omega)
      rw [isOne, singleton_append, length_singleton, add_comm 1, loop_ascii low, tail, count]

end Strings

/-- The function stays in its string unless the string is cut off inside a sequence. -/
theorem stays_iff (string : Bytes) : Stays string ↔ ¬ CutOff string := by
  constructor
  · intro stays cut
    obtain ⟨length, inside⟩ := stays.inside
    have itself := inside []
    rw [append_nil, loop_cut_off cut] at itself
    cases itself
  · intro whole
    refine ⟨?_, ?_⟩
    · exact loop_inside whole [] string rfl Characters.nil 0
    · intro chars isString
      rw [isString]
      have counted := loop_counts _ chars le_rfl 0
      rw [zero_add] at counted
      exact counted

theorem cut_after_letter : ngxUtf8Length [0x61, 0xc3] 2 = none ∧ ¬ Stays [0x61, 0xc3] := by
  have outside : ngxUtf8Length [0x61, 0xc3] 2 = none := by
    rw [ngxUtf8Length, loop_ascii (by decide), loop_outside (by decide) (by decide)]
  refine ⟨outside, ?_⟩
  intro stays
  obtain ⟨length, inside⟩ := stays.inside
  have itself := inside []
  exact absurd (outside.symm.trans itself) (by simp)

end ServerCore.NginxUtf8Length
