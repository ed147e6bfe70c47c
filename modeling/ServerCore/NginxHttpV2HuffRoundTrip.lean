import ServerCore.NginxHttpV2HuffDecoding
import Mathlib.Tactic.Ring

/-!
# The Huffman encoder against the decoder

The encoder's register holds the bits that are not yet written in its upper
`pending` positions and zeros below, so the written bytes followed by these
bits are the codes of the bytes read. Filling the last byte with one-bits
leaves fewer than eight of them, which the decoder accepts.
-/

namespace ServerCore.NginxHttpV2HuffRoundTrip

open BitString PrefixCode NginxHttpV2HuffTables NginxHttpV2Huff
open NginxHttpV2HuffAutomaton NginxHttpV2HuffDecoding List

variable {high low above width : Nat} {lower : Bool} {src : Bytes}

def ngxTolower (byte : Byte) : Byte :=
  if 0x41 ≤ byte ∧ byte ≤ 0x5a then byte ||| 0x20 else byte

def folded (lower : Bool) (byte : Byte) : Byte := if lower then ngxTolower byte else byte

def tableOf (lower : Bool) : List (Nat × Nat) :=
  if lower then ngxHttpV2HuffEncodeTableLc else ngxHttpV2HuffEncodeTable

theorem lower_table_check : ((List.range 256).all fun symbol =>
      ngxHttpV2HuffEncodeTableLc.getD symbol (0, 0) == codeOf (ngxTolower (UInt8.ofNat symbol))) = true := by
  decide +kernel

theorem table_of_get (lower : Bool) (symbol : Byte) :
    (tableOf lower).getD symbol.toNat (0, 0) = codeOf (folded lower symbol) := by
  cases lower with
  | false => rfl
  | true =>
    have checked := all_eq_true.mp lower_table_check symbol.toNat
      (mem_range.mpr symbol.toNat_lt)
    rw [beq_iff_eq, UInt8.ofNat_toNat] at checked
    exact checked

/-- The encoder has read `symbols`: `high` are the bits waiting in the register. -/
structure Holding (len : Nat) (syms : Bytes) (enc : HuffEncoder) (high : Nat) : Prop where
  room : enc.pending < bufBits
  small : high < 2 ^ enc.pending
  register : enc.buf = 2 ^ (bufBits - enc.pending) * high
  written : bytesBits enc.dst ++ ofNat high enc.pending = huffCode.encode syms
  short : enc.dst = [] ∨ enc.dst.length < len

theorem holding_initial {len : Nat} : Holding len [] ⟨0, 0, []⟩ 0 := by
  constructor <;> simp [bufBits, ofNat]

theorem encode_buf_length (buf count : Nat) : (encodeBuf buf count).length = count := by
  induction count with
  | zero => rfl
  | succ count ih => rw [encodeBuf, length_cons, ih]

theorem encode_buf_bits (buf count : Nat) : bytesBits (encodeBuf buf count) = ofNat buf (8 * count) := by
  induction count with
  | zero => rfl
  | succ count ih =>
    have byte : ofNat (UInt8.ofNat (buf >>> (8 * count))).toNat 8 =
        ofNat (buf / 2 ^ (8 * count)) 8 := by
      apply of_nat_congr
      intro index bound
      rw [UInt8.toNat_ofNat', Nat.testBit_mod_two_pow, Nat.shiftRight_eq_div_pow,
        decide_eq_true bound, Bool.true_and]
    have low : ofNat (buf % 2 ^ (8 * count)) (8 * count) = ofNat buf (8 * count) := by
      apply of_nat_congr
      intro index bound
      rw [Nat.testBit_mod_two_pow, decide_eq_true bound, Bool.true_and]
    rw [encodeBuf, bytes_bits_cons, ih, byte, Nat.mul_succ, add_comm, of_nat_split, low]

theorem register_append (small : low < 2 ^ width) :
    2 ^ (above + width) * high ||| 2 ^ above * low = 2 ^ above * (high * 2 ^ width + low) := by
  have below : 2 ^ above * low < 2 ^ (above + width) := by
    rw [pow_add]
    exact Nat.mul_lt_mul_of_pos_left small (Nat.two_pow_pos above)
  rw [← Nat.two_pow_add_eq_or_of_lt below, pow_add]
  ring

theorem joined_lt (highSmall : high < 2 ^ above)
    (lowSmall : low < 2 ^ width) : high * 2 ^ width + low < 2 ^ (above + width) := by
  calc high * 2 ^ width + low < high * 2 ^ width + 2 ^ width := by omega
    _ = (high + 1) * 2 ^ width := by ring
    _ ≤ 2 ^ above * 2 ^ width := Nat.mul_le_mul_right _ highSmall
    _ = 2 ^ (above + width) := (pow_add _ _ _).symm

theorem shift_left_mod {value count : Nat} (order : count ≤ bufBits) :
    (value <<< (bufBits - count)) % 2 ^ bufBits = 2 ^ (bufBits - count) * (value % 2 ^ count) := by
  have word : 2 ^ bufBits = 2 ^ (bufBits - count) * 2 ^ count := by
    rw [← pow_add, Nat.sub_add_cancel order]
  rw [Nat.shiftLeft_eq, mul_comm, word, Nat.mul_mod_mul_left]

section Step

variable {len high value width : Nat} {syms : Bytes} {enc : HuffEncoder} {symbol : Byte}
variable (holding : Holding len syms enc high) (fits : value < 2 ^ width)
  (code : huffCode.word symbol = ofNat value width)

include holding fits code

theorem holding_accumulate (room : enc.pending + width < bufBits) : Holding len (syms ++ [symbol])
      { enc with
        buf := enc.buf ||| (value <<< (bufBits - (enc.pending + width))) % 2 ^ bufBits
        pending := enc.pending + width }
      (high * 2 ^ width + value) where
  room := room
  small := joined_lt holding.small fits
  register := by
    have pos : bufBits - enc.pending = bufBits - (enc.pending + width) + width := by omega
    have whole : value % 2 ^ (enc.pending + width) = value :=
      Nat.mod_eq_of_lt (lt_of_lt_of_le fits
        (Nat.pow_le_pow_right (by decide) (Nat.le_add_left _ _)))
    rw [shift_left_mod room.le, whole, holding.register, pos, register_append fits]
  written := by
    rw [Code.encode_append, ← holding.written, of_nat_append _ _ fits, Code.encode_cons, code,
      Code.encode_nil, append_nil, append_assoc]
  short := holding.short

theorem holding_flush (bounded : width ≤ bufBits) (full : bufBits ≤ enc.pending + width)
    (short : enc.dst.length + bufBits / 8 < len) : Holding len (syms ++ [symbol])
      { buf := if enc.pending + width - bufBits = 0 then 0
          else (value <<< (bufBits - (enc.pending + width - bufBits))) % 2 ^ bufBits
        pending := enc.pending + width - bufBits
        dst := enc.dst ++
          encodeBuf (enc.buf ||| value >>> (enc.pending + width - bufBits)) 8 }
      (value % 2 ^ (enc.pending + width - bufBits)) := by
  have room := holding.room
  generalize beyond : enc.pending + width - bufBits = extra
  have split : width = bufBits - enc.pending + extra := by omega
  have top : value / 2 ^ extra < 2 ^ (bufBits - enc.pending) := by
    rw [Nat.div_lt_iff_lt_mul (Nat.two_pow_pos extra), ← pow_add, ← split]
    exact fits
  constructor
  · dsimp only
    omega
  · exact Nat.mod_lt _ (Nat.two_pow_pos extra)
  · dsimp only
    by_cases aligned : extra = 0
    · rw [if_pos aligned, aligned, pow_zero, Nat.mod_one, mul_zero]
    · rw [if_neg aligned]
      exact shift_left_mod (by omega)
  · have register : enc.buf ||| value >>> extra =
        high * 2 ^ (bufBits - enc.pending) + value / 2 ^ extra := by
      rw [holding.register, Nat.shiftRight_eq_div_pow, ← Nat.two_pow_add_eq_or_of_lt top, mul_comm]
    have bits : ofNat (enc.buf ||| value >>> extra) (8 * 8) =
        ofNat high enc.pending ++ ofNat (value / 2 ^ extra) (bufBits - enc.pending) := by
      have total : 8 * 8 = enc.pending + (bufBits - enc.pending) := by
        rw [Nat.add_sub_of_le room.le]
        rfl
      rw [register, total, of_nat_append _ _ top]
    have codeBits : ofNat value width = ofNat (value / 2 ^ extra) (bufBits - enc.pending) ++
        ofNat (value % 2 ^ extra) extra := by
      rw [split, of_nat_split]
    rw [bytes_bits_append, encode_buf_bits, bits, Code.encode_append, ← holding.written,
      Code.encode_cons, code, codeBits, Code.encode_nil]
    simp only [append_assoc, append_nil]
  · right
    rw [length_append, encode_buf_length]
    exact short

end Step

variable {len : Nat} {syms : Bytes} {enc : HuffEncoder}

theorem encode_step_holding {next : HuffEncoder} {symbol : Byte} (holding : Holding len syms enc high)
    (step : ngxHttpV2HuffEncodeStep (tableOf lower) len enc symbol = some next) :
    ∃ high, Holding len (syms ++ [folded lower symbol]) next high := by
  obtain ⟨fits, -, bounded, -⟩ := code_of_facts (folded lower symbol)
  simp only [Fits, decide_eq_true_eq] at fits
  simp only [ngxHttpV2HuffEncodeStep, HuffEncodeCode.at, table_of_get] at step
  by_cases room : enc.pending + (codeOf (folded lower symbol)).2 < bufBits
  · rw [if_pos room] at step
    cases step
    exact ⟨_, holding_accumulate holding fits (huff_code_word _) room⟩
  · rw [if_neg room] at step
    by_cases full : enc.dst.length + bufBits / 8 ≥ len
    · rw [if_pos full] at step
      cases step
    · rw [if_neg full] at step
      cases step
      exact ⟨_, holding_flush holding fits (huff_code_word _) (bounded.trans (by decide))
        (Nat.le_of_not_lt room) (Nat.lt_of_not_le full)⟩

theorem encode_run_holding {final : HuffEncoder} (holding : Holding len syms enc high)
    (run : src.foldlM (ngxHttpV2HuffEncodeStep (tableOf lower) len) enc = some final) :
    ∃ high, Holding len (syms ++ src.map (folded lower)) final high := by
  induction src generalizing syms enc high with
  | nil =>
    cases run
    exact ⟨high, by simpa using holding⟩
  | cons symbol src ih =>
    obtain ⟨next, step, rest⟩ := Option.bind_eq_some_iff.mp run
    obtain ⟨nextHigh, nextHolding⟩ := encode_step_holding holding step
    obtain ⟨finalHigh, finalHolding⟩ := ih nextHolding rest
    exact ⟨finalHigh, by simpa using finalHolding⟩

theorem align_eight : ∀ pending < bufBits, 0 < pending →
    pending ≤ ngxAlign pending 8 ∧ ngxAlign pending 8 < pending + 8 ∧
      ngxAlign pending 8 ≤ bufBits ∧ 8 * (ngxAlign pending 8 / 8) = ngxAlign pending 8 := by
  decide

theorem all_ones_shift : ∀ pending < bufBits,
    (2 ^ bufBits - 1) >>> pending = 2 ^ (bufBits - pending) - 1 := by
  decide

theorem register_fill {pending aligned : Nat} (order : pending ≤ aligned) (bounded : aligned ≤ bufBits) :
    (2 ^ (bufBits - pending) * high ||| (2 ^ (bufBits - pending) - 1)) >>> (bufBits - aligned) =
      high * 2 ^ (aligned - pending) + (2 ^ (aligned - pending) - 1) := by
  have pos : bufBits - pending = bufBits - aligned + (aligned - pending) := by omega
  generalize bufBits - aligned = cut at pos ⊢
  generalize aligned - pending = fill at pos ⊢
  have cutPositive := Nat.two_pow_pos cut
  have fillPositive := Nat.two_pow_pos fill
  have cutBelow : 2 ^ cut - 1 < 2 ^ cut := Nat.pred_lt cutPositive.ne'
  have below : 2 ^ (cut + fill) - 1 < 2 ^ (cut + fill) := Nat.pred_lt (Nat.two_pow_pos _).ne'
  have joined : 2 ^ (cut + fill) * high + (2 ^ (cut + fill) - 1) =
      2 ^ cut - 1 + 2 ^ cut * (high * 2 ^ fill + (2 ^ fill - 1)) := by
    have ones : 2 ^ (cut + fill) - 1 = 2 ^ cut - 1 + 2 ^ cut * (2 ^ fill - 1) := by
      rw [pow_add, Nat.mul_sub, mul_one]
      have order : 2 ^ cut ≤ 2 ^ cut * 2 ^ fill := Nat.le_mul_of_pos_right _ fillPositive
      omega
    rw [ones, pow_add]
    ring
  rw [pos, ← Nat.two_pow_add_eq_or_of_lt below, joined, Nat.shiftRight_eq_div_pow,
    Nat.add_mul_div_left _ _ cutPositive, Nat.div_eq_of_lt cutBelow, zero_add]

theorem encode_finish_holding {dst : Bytes}
    (holding : Holding len syms enc high) (finish : ngxHttpV2HuffEncodeFinish len enc = some dst) :
    (dst = [] ∨ dst.length < len) ∧ ∃ count < 8, bytesBits dst = huffCode.encode syms ++ ones count := by
  simp only [ngxHttpV2HuffEncodeFinish] at finish
  by_cases complete : enc.pending = 0
  · rw [if_pos complete] at finish
    cases finish
    have written := holding.written
    rw [complete, ofNat, append_nil] at written
    exact ⟨holding.short, 0, by decide, by simp [written, ones]⟩
  · rw [if_neg complete] at finish
    obtain ⟨above, near, bounded, whole⟩ :=
      align_eight enc.pending holding.room (Nat.pos_of_ne_zero complete)
    generalize ngxAlign enc.pending 8 = aligned at finish above near bounded whole
    by_cases full : enc.dst.length + aligned / 8 ≥ len
    · rw [if_pos full] at finish
      cases finish
    · rw [if_neg full] at finish
      cases finish
      constructor
      · right
        rw [length_append, encode_buf_length]
        omega
      · refine ⟨aligned - enc.pending, by omega, ?_⟩
        have fill : 2 ^ (aligned - enc.pending) - 1 < 2 ^ (aligned - enc.pending) :=
          Nat.pred_lt (Nat.two_pow_pos _).ne'
        have total : aligned = enc.pending + (aligned - enc.pending) := by omega
        have bits : ofNat (high * 2 ^ (aligned - enc.pending) +
            (2 ^ (aligned - enc.pending) - 1)) aligned =
            ofNat high enc.pending ++ ones (aligned - enc.pending) := by
          nth_rewrite 3 [total]
          rw [of_nat_append _ _ fill, of_nat_ones, ones]
        rw [bytes_bits_append, encode_buf_bits, whole, all_ones_shift _ holding.room, holding.register,
          register_fill above bounded, bits, ← append_assoc, holding.written]

theorem encode_spec (src : Bytes) (lower : Bool) (returned : 0 < (ngxHttpV2HuffEncode src lower).length) :
    (ngxHttpV2HuffEncode src lower).length < src.length ∧
      ∃ count < 8, bytesBits (ngxHttpV2HuffEncode src lower) =
        huffCode.encode (src.map (folded lower)) ++ ones count := by
  have table : (if lower = true then ngxHttpV2HuffEncodeTableLc else ngxHttpV2HuffEncodeTable) =
    tableOf lower := rfl
  simp only [ngxHttpV2HuffEncode, table] at returned ⊢
  generalize result : (src.foldlM (ngxHttpV2HuffEncodeStep (tableOf lower) src.length) ⟨0, 0, []⟩).bind
    (ngxHttpV2HuffEncodeFinish src.length) = written at returned ⊢
  cases written with
  | none => exact absurd returned (by simp)
  | some dst =>
    obtain ⟨enc, run, finish⟩ := Option.bind_eq_some_iff.mp result
    obtain ⟨high, holding⟩ := encode_run_holding holding_initial run
    obtain ⟨short, codes⟩ := encode_finish_holding holding finish
    rw [Option.getD_some] at returned ⊢
    refine ⟨short.resolve_left ?_, codes⟩
    exact ne_nil_of_length_pos returned

theorem huff_decode_accepted (accepted : Accepted (bytesBits src) syms) :
    ngxHttpV2HuffDecode 0 src [] true = ⟨.ngxOk, 0, syms⟩ := by
  have last := decode_last src reads_initial fun _ => ending_right_initial
  generalize ngxHttpV2HuffDecode 0 src [] true = decoded at last ⊢
  obtain ⟨rc, state, dst⟩ := decoded
  cases rc with
  | ngxError => exact absurd accepted (rejected_not_accepted (last.2 rfl))
  | ngxOk =>
    obtain ⟨start, output⟩ := last.1 rfl
    have same : dst = syms := accepted_unique output accepted
    subst same
    exact congrArg (HuffDecoded.mk .ngxOk · dst) start

/-- The encoder's output decodes to its input, and a field in any pieces is
accepted exactly when it consists of codes followed by fewer one-bits than the
end-of-string code has; its symbols fit the buffer of the caller. -/
theorem huffman_codes_agree :
    (∀ (src : Bytes) (lower : Bool), 0 < (ngxHttpV2HuffEncode src lower).length →
      (ngxHttpV2HuffEncode src lower).length < src.length ∧
        ngxHttpV2HuffDecode 0 (ngxHttpV2HuffEncode src lower) [] true =
          ⟨.ngxOk, 0, src.map (folded lower)⟩) ∧ ∀ (piece : Bytes) (pieces : List Bytes),
      let whole := (piece :: pieces).flatten
      let decoded := ngxHttpV2StateFieldHuff whole.length 0 [] piece pieces
      (decoded.rc = .ngxOk ↔ ∃ syms count,
        count ≤ 29 ∧ bytesBits whole = huffCode.encode syms ++ ones count) ∧
      (∀ syms count, count ≤ 29 → bytesBits whole = huffCode.encode syms ++ ones count →
        decoded.dst = syms ∧ decoded.state = 0) ∧
      decoded.dst.length ≤ 8 * whole.length / 5 := by
  constructor
  · intro src lower returned
    obtain ⟨shorter, count, few, codes⟩ := encode_spec src lower returned
    exact ⟨shorter, huff_decode_accepted ⟨count, few.trans (by decide), codes⟩⟩
  · intro piece pieces whole decoded
    have accepts : ∀ syms count, count ≤ 29 →
        bytesBits whole = huffCode.encode syms ++ ones count → Accepted (bytesBits whole) syms :=
      fun syms count few split => ⟨count, Nat.lt_succ_of_le few, split⟩
    have size : ∀ total, 5 * total ≤ (bytesBits whole).length → total ≤ 8 * whole.length / 5 := by
      intro total bound
      rw [bytes_bits_length] at bound
      omega
    rcases field_huff_decides piece pieces with ⟨ok, start, accepted⟩ | ⟨failed, rejected⟩
    · refine ⟨⟨fun _ => ?_, fun _ => ok⟩, fun syms count few split =>
        ⟨accepted_unique accepted (accepts syms count few split), start⟩,
        size _ (accepted_output_bound accepted)⟩
      obtain ⟨count, few, split⟩ := accepted
      exact ⟨_, count, Nat.le_of_lt_succ few, split⟩
    · refine ⟨⟨fun ok => ?_, ?_⟩, fun syms count few split =>
        absurd (accepts syms count few split) (rejected_not_accepted rejected),
        size _ (rejected_output_bound rejected)⟩
      · rw [failed] at ok
        exact absurd ok (by decide)
      · rintro ⟨syms, count, few, split⟩
        exact absurd (accepts syms count few split) (rejected_not_accepted rejected)

theorem huffman_codes_agree_three_letters : (ngxHttpV2HuffEncode [0x61, 0x41, 0x61] true).length = 2 ∧
      ngxHttpV2HuffDecode 0 (ngxHttpV2HuffEncode [0x61, 0x41, 0x61] true) [] true =
        ⟨.ngxOk, 0, [0x61, 0x61, 0x61]⟩ ∧
      (ngxHttpV2StateFieldHuff 2 0 [] [0x18] [[0xc7]]).dst = [0x61, 0x61, 0x61] := by
  have returned : (ngxHttpV2HuffEncode [0x61, 0x41, 0x61] true).length = 2 := by with_unfolding_all decide
  have round := (huffman_codes_agree.1 [0x61, 0x41, 0x61] true (by rw [returned]; decide)).2
  have pieces := (huffman_codes_agree.2 [0x18] [[0xc7]]).2.1 [0x61, 0x61, 0x61] 1 (by decide)
    (by with_unfolding_all decide)
  exact ⟨returned, round, pieces.1⟩

/-- Eight one-bits are no codes followed by at most seven one-bits, and the
decoder accepts them. -/
theorem eight_padding_bits_accepted : (ngxHttpV2StateFieldHuff 1 0 [] [0xff] []).rc = .ngxOk ∧
      ¬ ∃ syms count, count ≤ 7 ∧ bytesBits [0xff] = huffCode.encode syms ++ ones count := by
  refine ⟨by with_unfolding_all decide, ?_⟩
  rintro ⟨syms, count, few, split⟩
  have eight : bytesBits [0xff] = huffCode.encode [] ++ ones 8 := by decide
  have tails := (huffCode.decoded_unique (ones_padding 8) (ones_padding count)
    (eight.symm.trans split)).2
  have length := congrArg List.length tails
  simp only [length_replicate] at length
  omega

end ServerCore.NginxHttpV2HuffRoundTrip
