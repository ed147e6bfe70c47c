import ServerCore.NginxHttpV2HuffAutomaton

/-!
# What the Huffman decoder accepts

A decoder that has read some bits has output the symbols of the complete codes
among them and is in the state of the remaining bits. A field is accepted when
nothing but one-bits remain, fewer than the thirty of the end-of-string code,
and the decoder stops as soon as it reads all thirty.
-/

namespace ServerCore.NginxHttpV2HuffDecoding

open BitString PrefixCode NginxHttpV2Huff NginxHttpV2HuffAutomaton List

variable {bits : List Bool}
variable {consumed : List Bool}

def bytesBits (bytes : Bytes) : List Bool := bytes.flatMap fun byte => ofNat byte.toNat 8

@[simp] theorem bytes_bits_nil : bytesBits [] = [] := rfl

@[simp] theorem bytes_bits_cons (byte : Byte) (bytes : Bytes) :
    bytesBits (byte :: bytes) = ofNat byte.toNat 8 ++ bytesBits bytes := rfl

@[simp] theorem bytes_bits_append (left right : Bytes) :
    bytesBits (left ++ right) = bytesBits left ++ bytesBits right := by
  simp [bytesBits]

theorem bytes_bits_length (bytes : Bytes) : (bytesBits bytes).length = 8 * bytes.length := by
  induction bytes with
  | nil => rfl
  | cons byte bytes ih =>
    rw [bytes_bits_cons, length_append, of_nat_length, ih, length_cons]
    omega

def ones (count : Nat) : List Bool := List.replicate count true

/-- The bits read so far, with the symbols output and the state reached. -/
structure Reads (bits : List Bool) (state : Nat) (dst : Bytes) : Prop where
  bound : state < 256
  split : bits = huffCode.encode dst ++ prefixOf state

/-- The bits of a whole field that the decoder accepts with output `dst`. -/
def Accepted (bits : List Bool) (dst : Bytes) : Prop :=
  ∃ count < eosLength, bits = huffCode.encode dst ++ ones count

/-- The bits of a whole field that the decoder refuses after the output `dst`. -/
def Rejected (bits : List Bool) (dst : Bytes) : Prop :=
  huffCode.encode dst ++ ones eosLength <+: bits ∨
    ∃ state, Reads bits state dst ∧ ¬ ∃ count, prefixOf state = ones count

def EndingRight (dec : HuffDecoder) : Prop :=
  dec.ending ≠ 0 ↔ ∃ count, prefixOf dec.state = ones count

theorem reads_initial : Reads [] 0 [] := ⟨by decide, by with_unfolding_all decide⟩

theorem ending_right_initial : EndingRight ⟨0, 1, []⟩ := by
  have empty : prefixOf 0 = ones 0 := by with_unfolding_all decide
  exact ⟨fun _ => ⟨0, empty⟩, fun _ => by decide⟩

theorem accepted_unique {left right : Bytes} (first : Accepted bits left)
    (second : Accepted bits right) : left = right := by
  obtain ⟨leftCount, -, leftSplit⟩ := first
  obtain ⟨rightCount, -, rightSplit⟩ := second
  rw [leftSplit] at rightSplit
  exact (huffCode.decoded_unique (ones_padding _) (ones_padding _) rightSplit).1

variable {syms dst : Bytes} {state : Nat}

theorem code_words_no_eos {count : Nat} (short : count < eosLength) :
    ¬ ones eosLength <+: huffCode.encode syms ++ ones count := by
  intro pre
  cases syms with
  | nil =>
    have length := pre.length_le
    simp only [Code.encode_nil, nil_append, ones, length_replicate] at length
    omega
  | cons symbol syms =>
    rw [Code.encode_cons, append_assoc] at pre
    have wordLength : (huffCode.word symbol).length ≤ (ones eosLength).length := by
      rw [huff_code_word_length, ones, length_replicate]
      exact (code_of_facts symbol).2.2.1
    have word := prefix_of_prefix_length_le (prefix_append _ _) pre wordLength
    exact code_not_ones symbol _ word

theorem rejected_not_accepted (rejected : Rejected bits dst) : ¬ Accepted bits syms := by
  rintro ⟨count, short, split⟩
  rcases rejected with pre | ⟨state, reads, notOnes⟩
  · rw [split] at pre
    obtain ⟨later, -, eos⟩ := huffCode.decoded_is_initial (ones_padding count) pre
    exact code_words_no_eos short eos
  · have same := reads.split.symm.trans split
    have tails := (huffCode.decoded_unique (prefix_of_padding reads.bound) (ones_padding _) same).2
    exact notOnes ⟨count, tails⟩

theorem accepted_output_bound (accepted : Accepted bits dst) : 5 * dst.length ≤ bits.length := by
  obtain ⟨count, -, rfl⟩ := accepted
  have words := huffCode.encode_length_ge
    (fun symbol => by rw [huff_code_word_length]; exact (code_of_facts symbol).2.1) dst
  rw [length_append]
  omega

theorem rejected_output_bound (rejected : Rejected bits dst) : 5 * dst.length ≤ bits.length := by
  have words := huffCode.encode_length_ge
    (fun symbol => by rw [huff_code_word_length]; exact (code_of_facts symbol).2.1) dst
  rcases rejected with pre | ⟨state, reads, -⟩
  · have length := pre.length_le
    rw [length_append] at length
    omega
  · rw [reads.split, length_append]
    omega

theorem eos_rejected_append
    (eos : huffCode.encode dst ++ ones eosLength <+: bits) (more : List Bool) :
    Rejected (bits ++ more) dst :=
  .inl (eos.trans (prefix_append _ _))

/-- The outcome of reading bits up to `bits`. -/
inductive Outcome (bits : List Bool) : NgxInt × HuffDecoder → Prop
  | ok (dec : HuffDecoder) (reads : Reads bits dec.state dec.dst)
      (ending : EndingRight dec) : Outcome bits (.ngxOk, dec)
  | error (dec : HuffDecoder) (eos : huffCode.encode dec.dst ++ ones eosLength <+: bits) :
      Outcome bits (.ngxError, dec)

theorem decode_bits_outcome {dec : HuffDecoder} {bits : Nat}
    (reads : Reads consumed dec.state dec.dst) (bound : bits < 16) :
    Outcome (consumed ++ ofNat bits 4) (ngxHttpV2HuffDecodeBits dec bits) := by
  have joined : consumed ++ ofNat bits 4 =
      huffCode.encode dec.dst ++ (prefixOf dec.state ++ ofNat bits 4) := by
    rw [reads.split, append_assoc]
  simp only [ngxHttpV2HuffDecodeBits]
  by_cases stays : (HuffDecodeCode.at dec.state bits).next = dec.state
  · rw [if_pos stays]
    apply Outcome.error
    rw [joined]
    exact (prefix_append_right_inj _).mpr (transition_error reads.bound bound stays)
  · rw [if_neg stays]
    have transition := transition_step reads.bound bound stays
    apply Outcome.ok
    · refine ⟨transition.bound, ?_⟩
      rw [joined, transition.reads, ← append_assoc, ← Code.encode_append]
      split <;> simp
    · exact transition.ending

theorem decode_loop_outcome {src : Bytes} (dec : HuffDecoder)
    (reads : Reads consumed dec.state dec.dst) (ending : src = [] → EndingRight dec) :
    Outcome (consumed ++ bytesBits src) (ngxHttpV2HuffDecodeLoop dec src) := by
  induction src generalizing consumed dec with
  | nil =>
    rw [bytes_bits_nil, append_nil]
    exact Outcome.ok dec reads (ending rfl)
  | cons ch src ih =>
    have high : ch.toNat >>> 4 < 16 := by
      have byte := ch.toNat_lt
      rw [Nat.shiftRight_eq_div_pow]
      omega
    have low : ch.toNat &&& 0xf < 16 := Nat.lt_of_le_of_lt Nat.and_le_right (by decide)
    have nibbles : ofNat ch.toNat 8 = ofNat (ch.toNat >>> 4) 4 ++ ofNat (ch.toNat &&& 0xf) 4 := by
      rw [Nat.shiftRight_eq_div_pow, Nat.and_two_pow_sub_one_eq_mod _ 4]
      exact of_nat_split ch.toNat 4 4
    rw [bytes_bits_cons, nibbles, ← append_assoc, ← append_assoc, ngxHttpV2HuffDecodeLoop]
    have first := decode_bits_outcome reads high
    generalize ngxHttpV2HuffDecodeBits dec (ch.toNat >>> 4) = result at first
    cases first with
    | error dec eos =>
      apply Outcome.error
      rw [append_assoc]
      exact eos.trans (prefix_append _ _)
    | ok dec reads ending =>
      dsimp only
      have second := decode_bits_outcome reads low
      generalize ngxHttpV2HuffDecodeBits dec (ch.toNat &&& 0xf) = result at second
      cases second with
      | error dec eos => exact Outcome.error dec (eos.trans (prefix_append _ _))
      | ok dec reads ending => exact ih dec reads fun _ => ending

theorem accepted_of_reads
    (reads : Reads bits state dst) (padding : ∃ count, prefixOf state = ones count) : Accepted bits dst := by
  obtain ⟨count, isOnes⟩ := padding
  have length := prefix_of_length_lt reads.bound
  rw [isOnes, ones, length_replicate] at length
  exact ⟨count, length, by rw [reads.split, isOnes]⟩

section

variable (src : Bytes) {consumed : List Bool} {state : Nat} {dst : Bytes} (reads : Reads consumed state dst)
include src reads

theorem decode_last (ending : src = [] → EndingRight ⟨state, 1, dst⟩) :
    let decoded := ngxHttpV2HuffDecode state src dst true
    (decoded.rc = .ngxOk → decoded.state = 0 ∧ Accepted (consumed ++ bytesBits src) decoded.dst) ∧
      (decoded.rc = .ngxError → Rejected (consumed ++ bytesBits src) decoded.dst) := by
  have outcome := decode_loop_outcome ⟨state, 1, dst⟩ reads ending
  simp only [ngxHttpV2HuffDecode]
  generalize ngxHttpV2HuffDecodeLoop ⟨state, 1, dst⟩ src = result at outcome
  cases outcome with
  | error dec eos => simp [Rejected, eos]
  | ok dec reads ending =>
    by_cases open_ : dec.ending = 0
    · have notOnes : ¬ ∃ count, prefixOf dec.state = ones count :=
        fun isOnes => ending.mpr isOnes open_
      simp only [if_true, open_]
      exact ⟨nofun, fun _ => .inr ⟨dec.state, reads, notOnes⟩⟩
    · simp only [if_true, open_, if_false]
      exact ⟨fun _ => ⟨trivial, accepted_of_reads reads (ending.mp open_)⟩, nofun⟩

theorem decode_more : let decoded := ngxHttpV2HuffDecode state src dst false
    (decoded.rc = .ngxOk → Reads (consumed ++ bytesBits src) decoded.state decoded.dst) ∧
      (decoded.rc = .ngxError →
        huffCode.encode decoded.dst ++ ones eosLength <+: consumed ++ bytesBits src) := by
  by_cases empty : src = []
  · subst empty
    simpa [ngxHttpV2HuffDecode, ngxHttpV2HuffDecodeLoop] using reads
  · have outcome := decode_loop_outcome ⟨state, 1, dst⟩ reads
      fun isEmpty => absurd isEmpty empty
    simp only [ngxHttpV2HuffDecode]
    generalize ngxHttpV2HuffDecodeLoop ⟨state, 1, dst⟩ src = result at outcome
    cases outcome with
    | error dec eos => exact ⟨nofun, fun _ => eos⟩
    | ok dec reads ending => exact ⟨fun _ => reads, nofun⟩

end

theorem field_huff_rest (pieces : List Bytes) (piece : Bytes)
    (reads : Reads consumed state dst)
    (begun : (piece :: pieces).flatten = [] → EndingRight ⟨state, 1, dst⟩) :
    let whole := (piece :: pieces).flatten
    let decoded := ngxHttpV2StateFieldHuff whole.length state dst piece pieces
    (decoded.rc = .ngxOk → decoded.state = 0 ∧ Accepted (consumed ++ bytesBits whole) decoded.dst) ∧
      (decoded.rc = .ngxError → Rejected (consumed ++ bytesBits whole) decoded.dst) := by
  induction pieces generalizing piece consumed state dst with
  | nil =>
    simp only [flatten_cons, flatten_nil, append_nil, ngxHttpV2StateFieldHuff,
      Nat.sub_self, take_length, decide_true] at begun ⊢
    exact decode_last piece reads begun
  | cons more pieces ih =>
    simp only [flatten_cons, length_append] at begun ⊢
    generalize rest : more ++ pieces.flatten = tail at begun
    have lengths : more.length + pieces.flatten.length = tail.length := by
      rw [← rest, length_append]
    have cut : piece.take (piece.length + tail.length) = piece :=
      take_of_length_le (Nat.le_add_right _ _)
    rw [lengths, ngxHttpV2StateFieldHuff]
    simp only [Nat.add_sub_cancel_left, cut, bytes_bits_append]
    by_cases complete : tail.length = 0
    · have none : tail = [] := eq_nil_of_length_eq_zero complete
      have last := decode_last piece reads fun empty => begun (by simp [empty, none])
      simpa [complete, none] using last
    · have middle := decode_more piece reads
      simp only [complete, decide_false, or_false]
      by_cases failed : (ngxHttpV2HuffDecode state piece dst false).rc = .ngxError
      · rw [if_pos failed, ← append_assoc]
        refine ⟨fun accepted => ?_, fun _ => eos_rejected_append (middle.2 failed) _⟩
        rw [failed] at accepted
        exact absurd accepted (by decide)
      · rw [if_neg failed, ← append_assoc]
        have ok : (ngxHttpV2HuffDecode state piece dst false).rc = .ngxOk := by
          cases code : (ngxHttpV2HuffDecode state piece dst false).rc with
          | ngxOk => rfl
          | ngxError => exact absurd code failed
        have nonempty : (more :: pieces).flatten ≠ [] := by
          intro empty
          rw [flatten_cons, rest] at empty
          exact complete (by rw [empty, length_nil])
        have step := ih more (middle.1 ok) fun empty => absurd empty nonempty
        rw [flatten_cons, rest] at step
        exact step

theorem field_huff_decides (piece : Bytes) (pieces : List Bytes) :
    let whole := (piece :: pieces).flatten
    let decoded := ngxHttpV2StateFieldHuff whole.length 0 [] piece pieces
    (decoded.rc = .ngxOk ∧ decoded.state = 0 ∧ Accepted (bytesBits whole) decoded.dst) ∨
      (decoded.rc = .ngxError ∧ Rejected (bytesBits whole) decoded.dst) := by
  have cases := field_huff_rest pieces piece reads_initial fun _ => ending_right_initial
  simp only [nil_append] at cases ⊢
  cases code : (ngxHttpV2StateFieldHuff (piece :: pieces).flatten.length 0 [] piece pieces).rc with
  | ngxOk => exact .inl ⟨rfl, cases.1 code⟩
  | ngxError => exact .inr ⟨rfl, cases.2 code⟩

end ServerCore.NginxHttpV2HuffDecoding
