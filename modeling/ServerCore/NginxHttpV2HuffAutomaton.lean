import ServerCore.BitString
import ServerCore.PrefixCode
import ServerCore.NginxHttpV2Huff
import Mathlib.Tactic.IntervalCases

/-!
# The states of the decoder as begun codes

Every state of the decoder stands for the bits read since the last complete
code. `statePrefix` writes these bits down for each state, and the checks over
the tables below say that each transition of the decoder agrees with the codes
of the encoder: the bits of the old state and the four new ones are those of
the emitted code, if any, followed by those of the new state.
-/

namespace ServerCore.NginxHttpV2HuffAutomaton

open BitString PrefixCode NginxHttpV2HuffTables NginxHttpV2Huff

variable {short long : Nat × Nat} {state bits : Nat}

/-- The bits read since the last complete code, as a value and a length. -/
@[irreducible] def statePrefix : List (Nat × Nat) := List.map huffEntry
  [0x0,0x1,0x2,0x3,0x4,0x104,0x103,0x204,0x304,0x102,0x203,0x404,0x504,0xa05,0xb05,0x303,0x604,
   0xc05,0xd05,0x704,0xe05,0xf05,0x101,0x202,0x403,0x804,0x1005,0x1105,0x904,0x1205,0x1305,0x503,
   0xa04,0x1405,0x1505,0xb04,0x1605,0x1705,0x2e06,0x2f06,0x302,0x603,0xc04,0x1805,0x3006,0x3106,
   0x1905,0x3206,0x3306,0xd04,0x1a05,0x3406,0x3506,0x1b05,0x3606,0x3706,0x703,0xe04,0x1c05,0x3806,
   0x3906,0x1d05,0x3a06,0x3b06,0xf04,0x1e05,0x3c06,0x3d06,0x1f05,0x3e06,0x7c07,0x7d07,0x3f06,
   0x7e07,0x7f07,0xfe08,0x1fc09,0x1fd09,0xff08,0x1fe09,0x3fd0a,0x1ff09,0x3fe0a,0x7fd0b,0x3ff0a,
   0x7fe0b,0xffc0c,0xffd0c,0x7ff0b,0xffe0c,0xfff0c,0x1ffe0d,0x1fff0d,0x3ffe0e,0x3fff0e,0x7fff0f,
   0xfffe10,0x1fffc11,0x3fff812,0x3fff912,0x7fff313,0x1fffd11,0x3fffa12,0x7fff413,0x7fff513,
   0x3fffb12,0x7fff613,0x7fff713,0xfffee14,0xfffef14,0xffff10,0x1fffe11,0x3fffc12,0x7fff813,
   0xffff014,0xffff114,0x7fff913,0xffff214,0xffff314,0x3fffd12,0x7fffa13,0xffff414,0x1fffe915,
   0xffff514,0x1fffea15,0x1fffeb15,0x7fffb13,0xffff614,0x1fffec15,0x1fffed15,0xffff714,0x1fffee15,
   0x1fffef15,0x1ffff11,0x3fffe12,0x7fffc13,0xffff814,0x1ffff015,0x1ffff115,0xffff914,0x1ffff215,
   0x1ffff315,0x7fffd13,0xffffa14,0x1ffff415,0x1ffff515,0xffffb14,0x1ffff615,0x3fffec16,0x3fffed16,
   0x1ffff715,0x3fffee16,0x3fffef16,0x3ffff12,0x7fffe13,0xffffc14,0x1ffff815,0x3ffff016,0x3ffff116,
   0x1ffff915,0x3ffff216,0x3ffff316,0xffffd14,0x1ffffa15,0x3ffff416,0x3ffff516,0x1ffffb15,
   0x3ffff616,0x3ffff716,0x7ffff13,0xffffe14,0x1ffffc15,0x3ffff816,0x3ffff916,0x1ffffd15,
   0x3ffffa16,0x7ffff517,0x3ffffb16,0x7ffff617,0x7ffff717,0xfffff14,0x1ffffe15,0x3ffffc16,
   0x7ffff817,0x7ffff917,0x3ffffd16,0x7ffffa17,0x7ffffb17,0xfffff618,0xfffff718,0x1fffff15,
   0x3ffffe16,0x7ffffc17,0xfffff818,0x1fffff019,0x1fffff119,0xfffff918,0x1fffff219,0x1fffff319,
   0x7ffffd17,0xfffffa18,0x1fffff419,0x1fffff519,0xfffffb18,0x1fffff619,0x1fffff719,0x3ffffef1a,
   0x3fffff16,0x7ffffe17,0xfffffc18,0x1fffff819,0x3fffff01a,0x3fffff11a,0x1fffff919,0x3fffff21a,
   0x3fffff31a,0xfffffd18,0x1fffffa19,0x3fffff41a,0x3fffff51a,0x1fffffb19,0x3fffff61a,0x3fffff71a,
   0x7fffff17,0xfffffe18,0x1fffffc19,0x3fffff81a,0x7fffff11b,0x3fffff91a,0x7fffff21b,0x7fffff31b,
   0x1fffffd19,0x3fffffa1a,0x7fffff41b,0x7fffff51b,0x3fffffb1a,0x7fffff61b,0x7fffff71b,0xffffff18,
   0x1fffffe19,0x3fffffc1a,0x7fffff81b,0x7fffff91b,0x3fffffd1a,0x7fffffa1b,0x7fffffb1b,0x1ffffff19,
   0x3fffffe1a,0x7fffffc1b,0x7fffffd1b,0x3ffffff1a,0x7fffffe1b,0x7ffffff1b,0xfffffff1c,
   0x1ffffffe1d,0x1fffffff1d]

/-- The length of the end-of-string code, thirty one-bits, which no byte has. -/
def eosLength : Nat := 30

def bitsOf (entry : Nat × Nat) : List Bool := ofNat entry.1 entry.2

def Fits (entry : Nat × Nat) : Bool := entry.1 < 2 ^ entry.2

def begins (short long : Nat × Nat) : Bool :=
  Nat.ble short.2 long.2 && Nat.beq (Nat.shiftRight long.1 (long.2 - short.2)) short.1

/-- The transition of a state with prefix `old` that reads `bits` and finds `code`. -/
def transitionAgrees (state : Nat) (old : Nat × Nat) (bits : Nat) (code : HuffDecodeCode) : Bool :=
  let new := statePrefix.getD code.next (0, 0)
  if Nat.beq code.next state then
    begins (2 ^ eosLength - 1, eosLength) (old.1 * 2 ^ 4 + bits, old.2 + 4)
  else
    Nat.blt code.next 256 && (!Nat.beq code.ending 0) == Nat.beq new.1 (2 ^ new.2 - 1) &&
    if Nat.beq code.emit 0 then
      Nat.beq (old.1 * 2 ^ 4 + bits) new.1 && Nat.beq (old.2 + 4) new.2
    else
      let emitted := ngxHttpV2HuffEncodeTable.getD code.sym (0, 0)
      Nat.beq (old.1 * 2 ^ 4 + bits) (emitted.1 * 2 ^ new.2 + new.1) &&
        Nat.beq (old.2 + 4) (emitted.2 + new.2)

-- One evaluation for all the tables. The recursor spells out the inner loops: unfolding `List.all`
-- for each of the pairs takes the kernel three times as long.
set_option maxRecDepth 100000 in
theorem tables_check : (statePrefix.length = 256 ∧ ngxHttpV2HuffEncodeTable.length = 256 ∧
      ngxHttpV2HuffDecodeCodes.length = 256 ∧ ∀ row ∈ ngxHttpV2HuffDecodeCodes, row.length = 16) ∧
    (ngxHttpV2HuffEncodeTable.all fun entry =>
      Fits entry && 5 ≤ entry.2 && entry.2 ≤ eosLength && entry.1 != 2 ^ entry.2 - 1) = true ∧
    (ngxHttpV2HuffEncodeTable.zipIdx.all fun first =>
      ngxHttpV2HuffEncodeTable.zipIdx.rec true fun second _ done =>
        (begins first.1 second.1 && !Nat.beq first.2 second.2).rec done false) = true ∧
    ((ngxHttpV2HuffDecodeCodes.zip statePrefix).zipIdx.all fun row => row.1.1.zipIdx.all fun word =>
      transitionAgrees row.2 row.1.2 word.2 (HuffDecodeCode.ofWord word.1)) = true ∧
    (statePrefix.all fun entry => Fits entry && Nat.blt entry.2 eosLength &&
      ngxHttpV2HuffEncodeTable.rec true fun code _ done => (begins code entry).rec done false) = true := by
  decide +kernel

def codeOf (symbol : Byte) : Nat × Nat := ngxHttpV2HuffEncodeTable.getD symbol.toNat (0, 0)

def prefixOf (state : Nat) : List Bool := bitsOf (statePrefix.getD state (0, 0))

theorem begins_of_prefix (shortFits : Fits short = true)
    (longFits : Fits long = true) (pre : bitsOf short <+: bitsOf long) : begins short long = true := by
  simp only [Fits, decide_eq_true_eq] at shortFits longFits
  have numbers := prefix_of_nat shortFits longFits pre
  simp only [begins, Bool.and_eq_true, Nat.ble_eq, Nat.beq_eq]
  exact ⟨numbers.1, by rw [← numbers.2]; exact Nat.shiftRight_eq_div_pow _ _⟩

theorem prefix_of_begins (isBegun : begins short long = true) :
    bitsOf short <+: bitsOf long := by
  simp only [begins, Bool.and_eq_true, Nat.ble_eq, Nat.beq_eq] at isBegun
  obtain ⟨order, value⟩ := isBegun
  have quotient : long.1 / 2 ^ (long.2 - short.2) = short.1 := by
    rw [← value]
    exact (Nat.shiftRight_eq_div_pow _ _).symm
  have split := of_nat_split long.1 short.2 (long.2 - short.2)
  rw [Nat.add_sub_of_le order, quotient] at split
  rw [bitsOf, bitsOf, split]
  exact List.prefix_append _ _

theorem get_d_eq_get {Value : Type*} {list : List Value} {index : Nat} {default : Value}
    (bound : index < list.length) : list.getD index default = list[index] := by
  simp [List.getD, bound]

theorem none_of_rec {Entry : Type*} {test : Entry → Bool} {list : List Entry}
    (checked : (list.rec true fun entry _ done => (test entry).rec done false : Bool) = true) :
    ∀ entry ∈ list, test entry = false := by
  induction list with
  | nil => exact nofun
  | cons entry rest ih =>
    dsimp only at checked
    cases passed : test entry with
    | true => simp [passed] at checked
    | false =>
      rw [passed] at checked
      exact List.forall_mem_cons.mpr ⟨passed, ih checked⟩

theorem code_bound (symbol : Byte) : symbol.toNat < ngxHttpV2HuffEncodeTable.length := by
  rw [tables_check.1.2.1]
  exact symbol.toNat_lt

theorem code_of_mem (symbol : Byte) : codeOf symbol ∈ ngxHttpV2HuffEncodeTable := by
  rw [codeOf, get_d_eq_get (code_bound symbol)]
  exact List.getElem_mem _

theorem code_of_facts (symbol : Byte) :
    Fits (codeOf symbol) = true ∧ 5 ≤ (codeOf symbol).2 ∧ (codeOf symbol).2 ≤ eosLength ∧
      (codeOf symbol).1 ≠ 2 ^ (codeOf symbol).2 - 1 := by
  obtain ⟨-, codes, -⟩ := tables_check
  have checked := List.all_eq_true.mp codes _ (code_of_mem symbol)
  simpa only [Bool.and_eq_true, decide_eq_true_eq, bne_iff_ne, and_assoc] using checked

theorem code_prefix_free (first second : Byte)
    (pre : bitsOf (codeOf first) <+: bitsOf (codeOf second)) : first = second := by
  have isBegun := begins_of_prefix (code_of_facts first).1 (code_of_facts second).1 pre
  have indexed : ∀ symbol : Byte, (codeOf symbol, symbol.toNat) ∈ ngxHttpV2HuffEncodeTable.zipIdx := by
    intro symbol
    rw [List.mem_zipIdx_iff_getElem?, codeOf, get_d_eq_get (code_bound symbol)]
    exact List.getElem?_eq_getElem _
  obtain ⟨-, -, prefixFree, -⟩ := tables_check
  have apart := none_of_rec (List.all_eq_true.mp prefixFree _ (indexed first)) _ (indexed second)
  simp only [isBegun, Bool.true_and, Bool.not_eq_false', Nat.beq_eq] at apart
  exact UInt8.toNat_inj.mp apart

def huffCode : Code Byte Bool where
  word symbol := bitsOf (codeOf symbol)
  prefix_free := code_prefix_free

@[simp] theorem huff_code_word (symbol : Byte) : huffCode.word symbol = bitsOf (codeOf symbol) := rfl

theorem huff_code_word_length (symbol : Byte) : (huffCode.word symbol).length = (codeOf symbol).2 := by
  simp [bitsOf]

theorem eq_ones_of_prefix {word : List Bool} {width : Nat}
    (pre : word <+: List.replicate width true) : word = List.replicate word.length true := by
  rw [List.eq_replicate_iff]
  exact ⟨rfl, fun bit mem => List.eq_of_mem_replicate (pre.subset mem)⟩

theorem code_not_ones (symbol : Byte) (width : Nat) :
    ¬ huffCode.word symbol <+: List.replicate width true := by
  intro pre
  have ones := eq_ones_of_prefix pre
  rw [huff_code_word_length, ← of_nat_ones, huff_code_word, bitsOf] at ones
  obtain ⟨fits, -, -, notOnes⟩ := code_of_facts symbol
  simp only [Fits, decide_eq_true_eq] at fits
  have positive := Nat.two_pow_pos (codeOf symbol).2
  exact notOnes (of_nat_injective fits (by omega) ones)

theorem ones_padding (width : Nat) : huffCode.Padding (List.replicate width true) :=
  fun symbol => code_not_ones symbol width

section

variable {state : Nat} (bound : state < 256)
include bound

theorem state_prefix_mem : statePrefix.getD state (0, 0) ∈ statePrefix := by
  rw [← tables_check.1.1] at bound
  rw [get_d_eq_get bound]
  exact List.getElem_mem bound

theorem state_prefix_checked : (Fits (statePrefix.getD state (0, 0)) = true ∧
      (statePrefix.getD state (0, 0)).2 < eosLength) ∧ ∀ code ∈ ngxHttpV2HuffEncodeTable,
        begins code (statePrefix.getD state (0, 0)) = false := by
  obtain ⟨-, -, -, -, prefixes⟩ := tables_check
  have checked := List.all_eq_true.mp prefixes _ (state_prefix_mem bound)
  rw [Bool.and_eq_true, Bool.and_eq_true, Nat.blt_eq] at checked
  exact ⟨checked.1, none_of_rec checked.2⟩

theorem state_prefix_fits : Fits (statePrefix.getD state (0, 0)) = true :=
  (state_prefix_checked bound).1.1

theorem prefix_of_length_lt : (prefixOf state).length < eosLength := by
  rw [prefixOf, bitsOf, of_nat_length]
  exact (state_prefix_checked bound).1.2

theorem prefix_of_padding : huffCode.Padding (prefixOf state) := by
  intro symbol pre
  have isBegun := begins_of_prefix (code_of_facts symbol).1 (state_prefix_fits bound) pre
  rw [(state_prefix_checked bound).2 _ (code_of_mem symbol)] at isBegun
  exact absurd isBegun (by decide)

end

theorem table_entry_checked {Label Word : Type*} {rows : List (List Word)} {labels : List Label}
    (agrees : Nat → Label → Nat → Word → Bool)
    (checked : ((rows.zip labels).zipIdx.all fun row =>
      row.1.1.zipIdx.all fun word => agrees row.2 row.1.2 word.2 word.1) = true)
    (rowBound : state < rows.length) (labelBound : state < labels.length)
    (wordBound : bits < (rows[state]).length) :
    agrees state labels[state] bits rows[state][bits] = true := by
  have rowMember : ((rows[state], labels[state]), state) ∈ (rows.zip labels).zipIdx := by
    rw [List.mem_zipIdx_iff_getElem?]
    simp [rowBound, labelBound]
  have row := List.all_eq_true.mp (List.all_eq_true.mp checked _ rowMember)
  have wordMember : (rows[state][bits], bits) ∈ (rows[state]).zipIdx := by
    rw [List.mem_zipIdx_iff_getElem?]
    exact List.getElem?_eq_getElem wordBound
  exact row _ wordMember

theorem transition_checked (stateBound : state < 256) (bitsBound : bits < 16) :
    transitionAgrees state (statePrefix.getD state (0, 0)) bits (HuffDecodeCode.at state bits) = true := by
  obtain ⟨⟨prefixes, -, rows, rowLengths⟩, -, -, agree, -⟩ := tables_check
  have rowBound : state < ngxHttpV2HuffDecodeCodes.length := by rwa [rows]
  have prefixBound : state < statePrefix.length := by rwa [prefixes]
  have rowLength := rowLengths _ (List.getElem_mem rowBound)
  have wordBound : bits < (ngxHttpV2HuffDecodeCodes[state]).length := by rwa [rowLength]
  rw [HuffDecodeCode.at, get_d_eq_get rowBound, get_d_eq_get wordBound, get_d_eq_get prefixBound]
  exact table_entry_checked (fun state old bits word =>
    transitionAgrees state old bits (HuffDecodeCode.ofWord word)) agree rowBound prefixBound
      wordBound

/-- What a decoder in `state` has read, and what four more bits make of it. -/
structure Transition (state bits : Nat) (code : HuffDecodeCode) : Prop where
  bound : code.next < 256
  ending : code.ending ≠ 0 ↔ ∃ count, prefixOf code.next = List.replicate count true
  reads : prefixOf state ++ ofNat bits 4 =
    huffCode.encode (if code.emit ≠ 0 then [UInt8.ofNat code.sym] else []) ++ prefixOf code.next

theorem transition_error (stateBound : state < 256) (bitsBound : bits < 16)
    (stays : (HuffDecodeCode.at state bits).next = state) :
    List.replicate eosLength true <+: prefixOf state ++ ofNat bits 4 := by
  have agrees := transition_checked stateBound bitsBound
  simp only [transitionAgrees, stays, Nat.beq_refl, if_true] at agrees
  have pre := prefix_of_begins agrees
  rw [bitsOf, of_nat_ones] at pre
  rw [prefixOf, bitsOf, ← of_nat_append _ _ (by simpa using bitsBound)]
  exact pre

theorem bits_of_ones {entry : Nat × Nat} (fits : Fits entry = true) :
    (∃ count, bitsOf entry = List.replicate count true) ↔ entry.1 = 2 ^ entry.2 - 1 := by
  simp only [Fits, decide_eq_true_eq] at fits
  constructor
  · rintro ⟨count, ones⟩
    have width : entry.2 = count := by simpa [bitsOf] using congrArg List.length ones
    rw [← width, bitsOf, ← of_nat_ones] at ones
    exact of_nat_injective fits (by omega) ones
  · intro value
    exact ⟨entry.2, by rw [bitsOf, value, of_nat_ones]⟩

theorem transition_step (stateBound : state < 256) (bitsBound : bits < 16)
    (moves : (HuffDecodeCode.at state bits).next ≠ state) :
    Transition state bits (HuffDecodeCode.at state bits) := by
  have agrees := transition_checked stateBound bitsBound
  have oldFits : bits < 2 ^ 4 := by simpa using bitsBound
  have symBound : (HuffDecodeCode.at state bits).sym < 2 ^ 8 := Nat.mod_lt _ (by decide)
  generalize HuffDecodeCode.at state bits = code at agrees moves symBound ⊢
  simp only [transitionAgrees, Nat.beq_eq, moves, if_false, Bool.and_eq_true, Nat.blt_eq,
    beq_iff_eq] at agrees
  obtain ⟨⟨bound, ending⟩, reads⟩ := agrees
  have newFits := state_prefix_fits bound
  refine ⟨bound, ?_, ?_⟩
  · rw [prefixOf, bits_of_ones newFits, ← Nat.beq_eq, ← ending]
    simp [← Nat.beq_eq]
  · rw [prefixOf, bitsOf, ← of_nat_append _ _ oldFits, prefixOf]
    simp only [Fits, decide_eq_true_eq] at newFits
    by_cases silent : code.emit = 0
    · rw [if_pos silent] at reads
      simp only [Bool.and_eq_true, Nat.beq_eq] at reads
      rw [reads.1, reads.2, if_neg (not_not.mpr silent), Code.encode_nil, List.nil_append, bitsOf]
    · rw [if_neg silent] at reads
      simp only [Bool.and_eq_true, Nat.beq_eq] at reads
      rw [reads.1, reads.2, if_pos silent, Code.encode_cons, Code.encode_nil, List.append_nil,
        of_nat_append _ _ newFits, huff_code_word, codeOf, UInt8.toNat_ofNat_of_lt' symBound, bitsOf,
        bitsOf]

end ServerCore.NginxHttpV2HuffAutomaton
