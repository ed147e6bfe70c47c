import Mathlib.Data.Nat.Bitwise
import Mathlib.Data.List.Infix
import Mathlib.Tactic.Ring

/-!
# HPACK integers

`ngx_http_v2_write_int` writes an integer behind the flags of its first octet, and
`ngx_http_v2_parse_int` reads it back from the octets that have been received. What is
left of the header block is counted by `h2c->state.length`; at most four octets are read.
-/

namespace ServerCore.NginxHttpV2Integer

open List

variable {head rest : Bytes} {count : Nat}

abbrev Byte := UInt8

abbrev Bytes := List Byte

def ngxError : Int := -1

def ngxAgain : Int := -2

def ngxDeclined : Int := -5

def ngxHttpV2IntOctets : Nat := 4

def ngxHttpV2MaxField : Nat := 127 + (1 <<< ((ngxHttpV2IntOctets - 1) * 7)) - 1

/-- `ngx_http_v2_prefix(bits)`. -/
def ngxHttpV2Prefix (bits : Nat) : Nat := (1 <<< bits) - 1

/-- `ngx_http_v2_integer_octets(v)`. -/
def ngxHttpV2IntegerOctets (value : Nat) : Nat := 1 + value / 127

/-- The loop of `ngx_http_v2_write_int` and the octet behind it. -/
def writeOctets (value : Nat) : Bytes :=
  if 128 ≤ value then UInt8.ofNat (value % 128 + 128) :: writeOctets (value / 128)
  else [UInt8.ofNat value]
termination_by value
decreasing_by omega

/-- `first` is the octet at `pos`, which holds the flags already. -/
def ngxHttpV2WriteInt (first : Byte) (mask value : Nat) : Bytes :=
  if value < mask then [first ||| UInt8.ofNat value]
  else (first ||| UInt8.ofNat mask) :: writeOctets (value - mask)

/-- The code that is returned, by how much `*pos` moves, and `h2c->state.length`. -/
@[ext] structure Parsed where
  rc : Int
  pos : Nat
  length : Nat
  deriving DecidableEq

/-- The loop of `ngx_http_v2_parse_int`: the value and the number of octets read, unless
the octets end before the integer does. -/
def parseOctets : Bytes → Nat → Nat → Nat → Option (Nat × Nat)
  | [], _, _, _ => none
  | octet :: rest, shift, value, taken =>
    let value := value + ((octet &&& 0x7f).toNat <<< shift)
    if octet < 128 then some (value, taken + 1) else parseOctets rest (shift + 7) value (taken + 1)

/-- `bytes` lies between `*pos` and `end`; no octet is read behind `end`. -/
def ngxHttpV2ParseInt (length : Nat) (bytes : Bytes) (mask : Nat) : Option Parsed :=
  match bytes with
  | [] => none
  | first :: _ =>
    let value := first.toNat &&& mask
    if value ≠ mask then
      if length = 0 then some ⟨ngxError, 0, length⟩ else some ⟨value, 1, length - 1⟩
    else
      let bytes := if bytes.length > ngxHttpV2IntOctets then bytes.take ngxHttpV2IntOctets else bytes
      match parseOctets bytes.tail 0 value 1 with
      | some (value, taken) =>
        if taken > length then some ⟨ngxError, 0, length⟩ else some ⟨value, taken, length - taken⟩
      | none =>
        if bytes.length ≥ length then some ⟨ngxError, 0, length⟩
        else if bytes.length = ngxHttpV2IntOctets then some ⟨ngxDeclined, 0, length⟩
        else some ⟨ngxAgain, 0, length⟩

section Octets

variable {value : Nat}

theorem write_octets_small (small : value < 128) : writeOctets value = [UInt8.ofNat value] := by
  rw [writeOctets, if_neg (by omega)]

theorem write_octets_large (large : 128 ≤ value) :
    writeOctets value = UInt8.ofNat (value % 128 + 128) :: writeOctets (value / 128) := by
  rw [writeOctets, if_pos large]

theorem write_octets_filled (value : Nat) : writeOctets value ≠ [] := by
  by_cases large : 128 ≤ value
  · rw [write_octets_large large]
    exact cons_ne_nil _ _
  · rw [write_octets_small (by omega)]
    exact cons_ne_nil _ _

theorem octet_bits (octet : Byte) : (octet &&& 0x7f).toNat = octet.toNat % 128 := by
  rw [UInt8.toNat_and]
  exact Nat.and_two_pow_sub_one_eq_mod octet.toNat 7

theorem last_octet (small : value < 128) : (UInt8.ofNat value).toNat = value :=
  UInt8.toNat_ofNat_of_lt' (show value < 256 by omega)

theorem inner_octet (value : Nat) : (UInt8.ofNat (value % 128 + 128)).toNat = value % 128 + 128 :=
  UInt8.toNat_ofNat_of_lt' (show value % 128 + 128 < 256 by omega)

def Continues (octets : Bytes) : Prop := ∀ octet ∈ octets, 128 ≤ octet.toNat

theorem parse_octets_continue {octets : Bytes} (continues : Continues octets) (shift value taken : Nat) :
    parseOctets octets shift value taken = none := by
  induction octets generalizing shift value taken with
  | nil => rfl
  | cons octet rest ih =>
    have inner : ¬octet < 128 := by
      have high := continues octet (mem_cons_self ..)
      rw [UInt8.lt_iff_toNat_lt]
      exact not_lt.mpr high
    rw [parseOctets, if_neg inner]
    exact ih (fun other mem => continues other (mem_cons_of_mem _ mem)) _ _ _

theorem parse_octets_written (value : Nat) (rest : Bytes) (shift start taken : Nat) :
    parseOctets (writeOctets value ++ rest) shift start taken =
      some (start + value * 2 ^ shift, taken + (writeOctets value).length) := by
  induction value using Nat.strong_induction_on generalizing shift start taken with
  | _ value ih =>
    by_cases large : 128 ≤ value
    · have inner : ¬UInt8.ofNat (value % 128 + 128) < 128 := by
        rw [UInt8.lt_iff_toNat_lt, inner_octet]
        exact not_lt.mpr (Nat.le_add_left ..)
      have parts : value % 128 * 2 ^ shift + value / 128 * 2 ^ (shift + 7) = value * 2 ^ shift := by
        have whole := Nat.mod_add_div value 128
        calc value % 128 * 2 ^ shift + value / 128 * 2 ^ (shift + 7)
            = (value % 128 + 128 * (value / 128)) * 2 ^ shift := by rw [pow_add]; ring
          _ = value * 2 ^ shift := by rw [whole]
      rw [write_octets_large large, cons_append, parseOctets, if_neg inner, ih _ (by omega), octet_bits,
        inner_octet, Nat.shiftLeft_eq, Nat.add_mod_right, Nat.mod_mod, length_cons, ← parts]
      simp only [Option.some.injEq, Prod.mk.injEq]
      omega
    · have small : value < 128 := by omega
      have ends : UInt8.ofNat value < 128 := by
        rw [UInt8.lt_iff_toNat_lt, last_octet small]
        exact small
      rw [write_octets_small small, cons_append, parseOctets, if_pos ends, octet_bits, last_octet small,
        Nat.shiftLeft_eq, Nat.mod_eq_of_lt small]
      rfl

theorem continues_of_proper (before : head <+: writeOctets value) (proper : head ≠ writeOctets value) :
    Continues head := by
  induction value using Nat.strong_induction_on generalizing head with
  | _ value ih =>
    cases head with
    | nil => exact nofun
    | cons octet rest =>
      by_cases large : 128 ≤ value
      · rw [write_octets_large large] at before proper
        obtain ⟨rfl, inside⟩ := cons_prefix_cons.mp before
        have others := ih (value / 128) (by omega) inside (fun same => proper (by rw [same]))
        rintro other mem
        rcases mem_cons.mp mem with rfl | later
        · rw [inner_octet]
          exact Nat.le_add_left ..
        · exact others other later
      · rw [write_octets_small (by omega)] at before proper
        obtain ⟨rfl, inside⟩ := cons_prefix_cons.mp before
        rw [prefix_nil.mp inside] at proper
        cases proper rfl

theorem write_octets_length (small : value < 2 ^ (7 * (count + 1))) :
    (writeOctets value).length ≤ count + 1 := by
  induction count generalizing value with
  | zero =>
    rw [write_octets_small small]
    rfl
  | succ count ih =>
    by_cases large : 128 ≤ value
    · have split : 2 ^ (7 * (count + 1 + 1)) = 2 ^ (7 * (count + 1)) * 128 := pow_add 2 (7 * (count + 1)) 7
      rw [write_octets_large large, length_cons]
      have fewer : (writeOctets (value / 128)).length ≤ count + 1 := by
        apply ih
        rw [Nat.div_lt_iff_lt_mul (by omega), ← split]
        exact small
      omega
    · rw [write_octets_small (by omega)]
      exact Nat.le_add_left 1 (count + 1)

theorem write_octets_long (large : 2 ^ (7 * count) ≤ value) : count < (writeOctets value).length := by
  induction count generalizing value with
  | zero => exact length_pos_iff.mpr (write_octets_filled value)
  | succ count ih =>
    have split : 2 ^ (7 * (count + 1)) = 2 ^ (7 * count) * 128 := pow_add 2 (7 * count) 7
    have positive := Nat.two_pow_pos (7 * count)
    rw [write_octets_large (by omega), length_cons]
    have longer : count < (writeOctets (value / 128)).length := by
      apply ih
      rw [Nat.le_div_iff_mul_le (by omega), ← split]
      exact large
    omega

end Octets

section Codec

variable {bits value length : Nat} {first : Byte}

theorem prefix_eq (bits : Nat) : ngxHttpV2Prefix bits = 2 ^ bits - 1 := by
  rw [ngxHttpV2Prefix, Nat.shiftLeft_eq, one_mul]

theorem first_octet (high : bits ≤ 7) (flags : first.toNat % 2 ^ bits = 0) (small : value < 2 ^ bits) :
    (first ||| UInt8.ofNat value).toNat &&& ngxHttpV2Prefix bits = value := by
  have within : 2 ^ bits ≤ 2 ^ 7 := Nat.pow_le_pow_right (by omega) high
  have octet : (UInt8.ofNat value).toNat = value := UInt8.toNat_ofNat_of_lt' (show value < 256 by omega)
  rw [UInt8.toNat_or, octet, prefix_eq, Nat.and_two_pow_sub_one_eq_mod,
    Nat.or_mod_two_pow, flags, Nat.zero_or,
    Nat.mod_eq_of_lt small]

theorem write_int_short (short : value < ngxHttpV2Prefix bits) :
    ngxHttpV2WriteInt first (ngxHttpV2Prefix bits) value = [first ||| UInt8.ofNat value] := if_pos short

theorem write_int_long (long : ngxHttpV2Prefix bits ≤ value) :
    ngxHttpV2WriteInt first (ngxHttpV2Prefix bits) value =
      (first ||| UInt8.ofNat (ngxHttpV2Prefix bits)) :: writeOctets (value - ngxHttpV2Prefix bits) :=
  if_neg (not_lt.mpr long)

/-- The code behind the test of the first octet, on the octets that may be read. -/
def parseLong (length : Nat) (mask : Nat) (octets : Bytes) : Parsed :=
  match parseOctets octets.tail 0 mask 1 with
  | some (value, taken) =>
    if taken > length then ⟨ngxError, 0, length⟩ else ⟨value, taken, length - taken⟩
  | none =>
    if octets.length ≥ length then ⟨ngxError, 0, length⟩
    else if octets.length = ngxHttpV2IntOctets then ⟨ngxDeclined, 0, length⟩
    else ⟨ngxAgain, 0, length⟩

theorem parse_int_short (high : bits ≤ 7) (flags : first.toNat % 2 ^ bits = 0)
    (short : value < ngxHttpV2Prefix bits)
    (covers : 0 < length) (rest : Bytes) :
    ngxHttpV2ParseInt length ((first ||| UInt8.ofNat value) :: rest) (ngxHttpV2Prefix bits) =
      some ⟨value, 1, length - 1⟩ := by
  have small : value < 2 ^ bits := short.trans_le (by rw [prefix_eq]; exact Nat.sub_le _ _)
  rw [ngxHttpV2ParseInt]
  simp only [first_octet high flags small]
  rw [if_pos (by omega), if_neg (by omega)]

theorem parse_int_long (high : bits ≤ 7) (flags : first.toNat % 2 ^ bits = 0) (rest : Bytes) :
    ngxHttpV2ParseInt length ((first ||| UInt8.ofNat (ngxHttpV2Prefix bits)) :: rest)
      (ngxHttpV2Prefix bits) =
      some (parseLong length (ngxHttpV2Prefix bits)
        (((first ||| UInt8.ofNat (ngxHttpV2Prefix bits)) :: rest).take ngxHttpV2IntOctets)) := by
  have small : ngxHttpV2Prefix bits < 2 ^ bits := by
    rw [prefix_eq]
    omega
  have clipped : ∀ octets : Bytes, (if octets.length > ngxHttpV2IntOctets then octets.take ngxHttpV2IntOctets
      else octets) = octets.take ngxHttpV2IntOctets := by
    intro octets
    by_cases many : octets.length > ngxHttpV2IntOctets
    · rw [if_pos many]
    · rw [if_neg many, take_of_length_le (by omega)]
  rw [ngxHttpV2ParseInt]
  simp only [first_octet high flags small, clipped]
  rw [if_neg (fun differ => differ rfl), parseLong]
  cases parseOctets ((((first ||| UInt8.ofNat (ngxHttpV2Prefix bits)) :: rest).take
    ngxHttpV2IntOctets)).tail 0
      (ngxHttpV2Prefix bits) 1 with
  | none =>
    split_ifs <;> rfl
  | some found =>
    dsimp only
    split_ifs <;> rfl

theorem parse_long_continue {octets : Bytes} (continues : Continues octets.tail) (mask : Nat) :
    (parseLong length mask octets).rc < 0 ∧ (parseLong length mask octets).pos = 0 ∧
      (parseLong length mask octets).length = length := by
  rw [parseLong, parse_octets_continue continues]
  by_cases beyond : octets.length ≥ length
  · rw [if_pos beyond]
    exact ⟨show ngxError < 0 by decide, rfl, rfl⟩
  · rw [if_neg beyond]
    by_cases many : octets.length = ngxHttpV2IntOctets
    · rw [if_pos many]
      exact ⟨show ngxDeclined < 0 by decide, rfl, rfl⟩
    · rw [if_neg many]
      exact ⟨show ngxAgain < 0 by decide, rfl, rfl⟩

theorem parse_long_again {octets : Bytes} (continues : Continues octets.tail) (mask : Nat)
    (covered : octets.length < length) (few : octets.length < ngxHttpV2IntOctets) :
    parseLong length mask octets = ⟨ngxAgain, 0, length⟩ := by
  rw [parseLong, parse_octets_continue continues]
  rw [if_neg (by omega), if_neg (by omega)]

theorem parse_long_written {mask : Nat} {octet : Byte} (few : (writeOctets value).length ≤ 3)
    (covers : 1 + (writeOctets value).length ≤ length) :
    parseLong length mask ((octet :: (writeOctets value ++ rest)).take ngxHttpV2IntOctets) =
      ⟨((mask + value : Nat) : Int), 1 + (writeOctets value).length,
        length - (1 + (writeOctets value).length)⟩ := by
  have inside : ((octet :: (writeOctets value ++ rest)).take ngxHttpV2IntOctets).tail =
      writeOctets value ++ rest.take (3 - (writeOctets value).length) := by
    show (writeOctets value ++ rest).take 3 = _
    rw [take_append, take_of_length_le few]
  rw [parseLong, inside, parse_octets_written, pow_zero, mul_one]
  exact if_neg (by omega)

theorem continues_of_take (large : 2 ^ 21 ≤ value) : Continues
    ((writeOctets value ++ rest).take 3) := by
  have long : 3 < (writeOctets value).length := write_octets_long large
  rw [take_append_of_le_length long.le]
  apply continues_of_proper <| take_prefix ..
  intro same
  have short := congrArg List.length same
  rw [length_take] at short
  omega

theorem write_octets_reserved (value : Nat) : (writeOctets value).length ≤ 1 + value / 127 := by
  induction value using Nat.strong_induction_on with
  | _ value ih =>
    by_cases large : 128 ≤ value
    · rw [write_octets_large large, length_cons]
      have fewer := ih (value / 128) (by omega)
      omega
    · rw [write_octets_small (by omega)]
      exact Nat.le_add_right 1 _

theorem write_int_reserved :
    (ngxHttpV2WriteInt first (ngxHttpV2Prefix 7) value).length ≤ ngxHttpV2IntegerOctets value := by
  have seven : ngxHttpV2Prefix 7 = 127 := rfl
  by_cases short : value < ngxHttpV2Prefix 7
  · rw [write_int_short short]
    exact Nat.le_add_right 1 _
  · rw [write_int_long (by omega), length_cons, ngxHttpV2IntegerOctets]
    have reserved := write_octets_reserved (value - ngxHttpV2Prefix 7)
    omega

section

variable (high : bits ≤ 7) (flags : first.toNat % 2 ^ bits = 0)
include high flags

theorem parse_int_part (small : value ≤ ngxHttpV2Prefix bits + 2 ^ 21 - 1) (filled : head ≠ [])
    (before : head <+: ngxHttpV2WriteInt first (ngxHttpV2Prefix bits) value)
    (proper : head ≠ ngxHttpV2WriteInt first (ngxHttpV2Prefix bits) value)
    (covers : (ngxHttpV2WriteInt first (ngxHttpV2Prefix bits) value).length ≤ length) :
    ngxHttpV2ParseInt length head (ngxHttpV2Prefix bits) = some ⟨ngxAgain, 0, length⟩ := by
  obtain ⟨octet, rest, rfl⟩ := exists_cons_of_ne_nil filled
  by_cases short : value < ngxHttpV2Prefix bits
  · rw [write_int_short short] at before proper
    obtain ⟨rfl, inside⟩ := cons_prefix_cons.mp before
    rw [prefix_nil.mp inside] at proper
    cases proper rfl
  · have long : ngxHttpV2Prefix bits ≤ value := by omega
    rw [write_int_long long] at before proper covers
    obtain ⟨rfl, inside⟩ := cons_prefix_cons.mp before
    have differ : rest ≠ writeOctets (value - ngxHttpV2Prefix bits) := fun same => proper (by rw [same])
    have few : (writeOctets (value - ngxHttpV2Prefix bits)).length ≤ 3 :=
      write_octets_length (show value - ngxHttpV2Prefix bits < 2 ^ (7 * (2 + 1)) by omega)
    have shorter : rest.length < (writeOctets (value - ngxHttpV2Prefix bits)).length := by
      apply lt_of_le_of_ne inside.length_le
      intro same
      exact differ (inside.eq_of_length same)
    have whole : ((first ||| UInt8.ofNat (ngxHttpV2Prefix bits)) :: rest).take ngxHttpV2IntOctets =
        (first ||| UInt8.ofNat (ngxHttpV2Prefix bits)) :: rest :=
      take_of_length_le (show rest.length + 1 ≤ 4 by omega)
    rw [length_cons] at covers
    have continues : Continues rest := continues_of_proper inside differ
    have covered : rest.length + 1 < length := by omega
    have fits : rest.length + 1 < 4 := by omega
    rw [parse_int_long high flags, whole]
    exact congrArg some (@parse_long_again length (_ :: rest) continues _ covered fits)

theorem parse_int_whole (small : value ≤ ngxHttpV2Prefix bits + 2 ^ 21 - 1) (rest : Bytes)
    (covers : (ngxHttpV2WriteInt first (ngxHttpV2Prefix bits) value).length ≤ length) :
    ngxHttpV2ParseInt length (ngxHttpV2WriteInt first (ngxHttpV2Prefix bits) value ++ rest)
      (ngxHttpV2Prefix bits) =
      some ⟨value, (ngxHttpV2WriteInt first (ngxHttpV2Prefix bits) value).length,
        length - (ngxHttpV2WriteInt first (ngxHttpV2Prefix bits) value).length⟩ := by
  by_cases short : value < ngxHttpV2Prefix bits
  · rw [write_int_short short] at covers ⊢
    exact parse_int_short high flags short covers rest
  · have long : ngxHttpV2Prefix bits ≤ value := by omega
    have few : (writeOctets (value - ngxHttpV2Prefix bits)).length ≤ 3 :=
      write_octets_length (show value - ngxHttpV2Prefix bits < 2 ^ (7 * (2 + 1)) by omega)
    have whole : ngxHttpV2Prefix bits + (value - ngxHttpV2Prefix bits) = value := Nat.add_sub_cancel' long
    rw [write_int_long long, length_cons, add_comm _ 1] at covers ⊢
    rw [cons_append, parse_int_long high flags, parse_long_written few covers, whole]

theorem parse_int_large (large : ngxHttpV2Prefix bits + 2 ^ 21 - 1 < value) (filled : head ≠ [])
    (before : head <+: ngxHttpV2WriteInt first (ngxHttpV2Prefix bits) value ++ rest) :
    ∃ rc < 0, ngxHttpV2ParseInt length head (ngxHttpV2Prefix bits) = some ⟨rc, 0, length⟩ := by
  obtain ⟨octet, tail, rfl⟩ := exists_cons_of_ne_nil filled
  have long : ngxHttpV2Prefix bits ≤ value := by omega
  rw [write_int_long long, cons_append] at before
  obtain ⟨rfl, inside⟩ := cons_prefix_cons.mp before
  have continues : Continues
      (((first ||| UInt8.ofNat (ngxHttpV2Prefix bits)) :: tail).take ngxHttpV2IntOctets).tail := by
    intro other mem
    have first3 : tail.take 3 <+: (writeOctets (value - ngxHttpV2Prefix bits) ++ rest).take 3 :=
      inside.take 3
    have beyond : 2 ^ 21 ≤ value - ngxHttpV2Prefix bits := by omega
    exact continues_of_take beyond other (first3.subset mem)
  obtain ⟨negative, stays, keeps⟩ := @parse_long_continue length _ continues (ngxHttpV2Prefix bits)
  refine ⟨_, negative, ?_⟩
  rw [parse_int_long high flags]
  exact congrArg some (Parsed.ext rfl stays keeps)

end

end Codec

/-- What is written is read back, in parts and as a whole; what is too large is refused,
and the octets that the encoder reserves are enough. -/
theorem integer_codec (bits : Nat) (high : bits ≤ 7) (first : Byte)
    (flags : first.toNat % 2 ^ bits = 0) (value : Nat) :
    let written := ngxHttpV2WriteInt first (ngxHttpV2Prefix bits) value
    let parse := fun length bytes => ngxHttpV2ParseInt length bytes (ngxHttpV2Prefix bits)
    (value ≤ ngxHttpV2Prefix bits + 2 ^ 21 - 1 → ∀ length, written.length ≤ length →
      (∀ head, head ≠ [] → head <+: written → head ≠ written →
        parse length head = some ⟨ngxAgain, 0, length⟩) ∧
      ∀ rest, parse length (written ++ rest) = some ⟨value, written.length, length - written.length⟩) ∧
    (ngxHttpV2Prefix bits + 2 ^ 21 - 1 < value → ∀ length rest head, head ≠ [] → head <+: written ++ rest →
      ∃ rc < 0, parse length head = some ⟨rc, 0, length⟩) ∧
    (bits = 7 → written.length ≤ ngxHttpV2IntegerOctets value) := by
  refine ⟨fun small length covers => ⟨?_, ?_⟩, ?_, ?_⟩
  · intro head filled before proper
    exact parse_int_part high flags small filled before proper covers
  · intro rest
    exact parse_int_whole high flags small rest covers
  · intro large length rest head filled before
    exact parse_int_large high flags large filled before
  · rintro rfl
    exact write_int_reserved

theorem max_field_written : ngxHttpV2WriteInt 0x80 (ngxHttpV2Prefix 7) ngxHttpV2MaxField =
    [0xff, 0xff, 0xff, 0x7f] := by
  have long : ngxHttpV2Prefix 7 ≤ ngxHttpV2MaxField := by decide
  have rest : ngxHttpV2MaxField - ngxHttpV2Prefix 7 = 2097151 := by decide
  rw [write_int_long long, rest, write_octets_large (by decide), write_octets_large (by decide),
    write_octets_small (by decide)]
  decide

theorem integer_codec_max_field :
    (∀ head, head ≠ [] → head <+: [0xff, 0xff, 0xff, 0x7f] → head ≠ [0xff, 0xff, 0xff, 0x7f] →
      ngxHttpV2ParseInt 5 head (ngxHttpV2Prefix 7) = some ⟨ngxAgain, 0, 5⟩) ∧
    ∀ rest, ngxHttpV2ParseInt 5 ([0xff, 0xff, 0xff, 0x7f] ++ rest) (ngxHttpV2Prefix 7) =
      some ⟨ngxHttpV2MaxField, 4, 1⟩ := by
  have codec := (integer_codec 7 (by decide) 0x80 (by decide) ngxHttpV2MaxField).1 (by decide) 5
  rw [max_field_written] at codec
  exact codec (by decide)

end ServerCore.NginxHttpV2Integer
