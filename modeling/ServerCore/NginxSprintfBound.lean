import ServerCore.NginxSprintf

/-!
# Formatting before a limit

A format is described piece by piece: a plain byte, or a conversion with the
arguments that it takes and the text that it stands for. Whatever the limit is,
the code writes as much of the whole text as fits in front of it.
-/

namespace ServerCore.NginxSprintfBound

open NginxNumbers (Byte Bytes isDigit)
open BoundedWriter NginxSprintf List Option

variable {args : List Arg} {text : Bytes}

/-- What may stand between the width and the letter of a conversion; `*` takes an argument. -/
inductive Flag where
  | u
  | m
  | upperX
  | x
  | star (slen : Int)

def Flag.byte : Flag → Byte
  | .u => 'u'.toUInt8
  | .m => 'm'.toUInt8
  | .upperX => 'X'.toUInt8
  | .x => 'x'.toUInt8
  | .star _ => '*'.toUInt8

def Flag.taken : Flag → List Arg
  | .star slen => [.integer slen]
  | _ => []

def Flag.apply (spec : Spec) : Flag → Spec
  | .u => { spec with sign := false }
  | .m => { spec with maxWidth := true }
  | .upperX => { spec with hex := 2, sign := false }
  | .x => { spec with hex := 1, sign := false }
  | .star slen => { spec with slen := unsignedType 64 slen }

def flagBytes : Bytes := ['u', 'm', 'X', 'x', '*', '.'].map Char.toUInt8

/-- What a conversion consists of behind its `%`. -/
structure Conversion where
  digits : Bytes
  flags : List Flag
  point : Option Bytes
  letter : Byte
  digits_plain : ∀ c ∈ digits, isDigit c = true
  point_plain : ∀ c ∈ point.getD [], isDigit c = true
  letter_ends : if point.isSome then isDigit letter = false
    else letter ∉ flagBytes ∧ (flags = [] → isDigit letter = false)
  letter_inside : letter ≠ 0

theorem nothing_plain : ∀ c ∈ ([] : Bytes), isDigit c = true := forall_mem_nil _

def Conversion.pointBytes (conversion : Conversion) : Bytes :=
  match conversion.point with
  | none => []
  | some digits => '.'.toUInt8 :: digits

def Conversion.bytes (conversion : Conversion) : Bytes :=
  conversion.digits ++ (conversion.flags.map Flag.byte ++ (conversion.pointBytes ++ [conversion.letter]))

/-- The arguments of the `*`. -/
def Conversion.lengths (conversion : Conversion) : List Arg := conversion.flags.flatMap Flag.taken

def widthOf (digits : Bytes) : Nat :=
  digits.foldl (fun width c => (width * 10 + (c.toNat - '0'.toNat)) % 2 ^ 64) 0

def Conversion.spec (conversion : Conversion) : Spec :=
  conversion.flags.foldl Flag.apply
    ⟨if conversion.digits.head? = some '0'.toUInt8 then '0'.toUInt8 else ' '.toUInt8,
      widthOf conversion.digits, true, 0, false, sizeMax⟩

def numText (ui64 : Nat) (zero : Byte) (hexadecimal width : Nat) : Bytes :=
  List.replicate (width - (digitsOf ui64 hexadecimal).length) zero ++ digitsOf ui64 hexadecimal

def numberText (number : Number) : Bytes :=
  let spec := number.spec
  if spec.sign then
    if number.i64 < 0 then '-'.toUInt8 :: numText number.i64.natAbs spec.zero spec.hex spec.width
    else numText number.i64.toNat spec.zero spec.hex spec.width
  else numText number.ui64 spec.zero spec.hex spec.width

/-- The letters with an argument that is not an integer to be printed, and `%f`. -/
def ownLetters : Bytes := ['V', 'v', 's', 'f', 'c', 'Z', 'N', '%'].map Char.toUInt8

inductive Converts (spec : Spec) : Byte → List Arg → Bytes → Prop where
  | str (v : Bytes) : Converts spec 'V'.toUInt8 [.str v] v
  | variableValue (vv : Bytes) : Converts spec 'v'.toUInt8 [.variableValue vv] vv
  | terminated (text more : Bytes) : spec.slen = sizeMax → 0 ∉ text →
      Converts spec 's'.toUInt8 [.chars (text ++ 0 :: more)] text
  | counted (p : Bytes) : spec.slen ≠ sizeMax → spec.slen ≤ p.length →
      Converts spec 's'.toUInt8 [.chars p] (p.take spec.slen)
  | char (d : Int) : Converts spec 'c'.toUInt8 [.integer d] [(unsignedType 8 d).toUInt8]
  | nul : Converts spec 'Z'.toUInt8 [] [0]
  | newline : Converts spec 'N'.toUInt8 [] ['\n'.toUInt8]
  | percent : Converts spec '%'.toUInt8 [] ['%'.toUInt8]
  | number (c : Byte) (read : Int → Number) (value : Int) : c ∉ ownLetters → readNumber spec c = some read →
      Converts spec c [.integer value] (numberText (read value))
  | other (c : Byte) : c ∉ ownLetters → readNumber spec c = none → Converts spec c [] [c]

/-- The format, the arguments and the text that they stand for. What is behind the NUL
and arguments that are left do not matter. -/
inductive Formats : Bytes → List Arg → Bytes → Prop where
  | stop (more : Bytes) (args : List Arg) : Formats (0 :: more) args []
  | plain (c : Byte) {fmt : Bytes} {args : List Arg} {text : Bytes} : c ≠ 0 → c ≠ '%'.toUInt8 →
      Formats fmt args text → Formats (c :: fmt) args (c :: text)
  | conversion (conversion : Conversion) {taken : List Arg} {piece fmt : Bytes} {args : List Arg}
      {text : Bytes} : Converts conversion.spec conversion.letter taken piece → Formats fmt args text →
      Formats ('%'.toUInt8 :: (conversion.bytes ++ fmt))
        (conversion.lengths ++ (taken ++ args)) (piece ++ text)

theorem read_width (digits rest : Bytes) (plain : ∀ c ∈ digits, isDigit c = true)
    (ends : ∀ c ∈ rest.head?, isDigit c = false) (width : Nat) : readWidth width (digits ++ rest) =
      (digits.foldl (fun width c => (width * 10 + (c.toNat - '0'.toNat)) % 2 ^ 64) width, rest) := by
  induction digits generalizing width with
  | nil =>
    cases rest with
    | nil => rfl
    | cons c rest =>
      have other : isDigit c = false := ends c rfl
      rw [nil_append, readWidth, other]
      rfl
  | cons c digits ih =>
    rw [cons_append, readWidth, plain c mem_cons_self]
    exact ih (fun d mem => plain d (mem_cons_of_mem c mem)) _

theorem read_flag (flag : Flag) (spec : Spec) (fmt : Bytes) (args : List Arg) :
    readFlags spec (flag.byte :: fmt) (flag.taken ++ args) = readFlags (flag.apply spec) fmt args := by
  cases flag <;> rfl

theorem read_flags (flags : List Flag) (spec : Spec) (fmt : Bytes) (args : List Arg) :
    readFlags spec (flags.map Flag.byte ++ fmt) (flags.flatMap Flag.taken ++ args) =
      readFlags (flags.foldl Flag.apply spec) fmt args := by
  induction flags generalizing spec with
  | nil => rfl
  | cons flag flags ih =>
    rw [map_cons, cons_append, flatMap_cons, append_assoc, read_flag, ih]
    rfl

theorem read_end (conversion : Conversion) (spec : Spec) (fmt : Bytes) (args : List Arg) :
    readFlags spec (conversion.pointBytes ++ conversion.letter :: fmt) args =
      some (spec, conversion.letter :: fmt, args) := by
  have ends := conversion.letter_ends
  have plain := conversion.point_plain
  rw [Conversion.pointBytes]
  cases isPoint : conversion.point with
  | none =>
    rw [isPoint, isSome_none, if_neg (by simp)] at ends
    have others : ∀ c ∈ flagBytes, conversion.letter ≠ c := fun c mem same => ends.1 (same ▸ mem)
    unfold readFlags
    rw [nil_append]
    dsimp only
    iterate 6 rw [if_neg (others _ (by decide))]
  | some digits =>
    rw [isPoint, isSome_some, if_pos rfl] at ends
    rw [isPoint, getD_some] at plain
    have behind : (digits ++ conversion.letter :: fmt).dropWhile isDigit = conversion.letter :: fmt := by
      rw [dropWhile_append_of_pos plain]
      exact dropWhile_cons_of_neg (by simp [ends])
    change some (spec, (digits ++ conversion.letter :: fmt).dropWhile isDigit, args) = _
    rw [behind]

section

variable (conversion : Conversion) (fmt : Bytes)

theorem width_ends :
    ∀ c ∈ (conversion.flags.map Flag.byte ++ (conversion.pointBytes ++ conversion.letter :: fmt)).head?,
      isDigit c = false := by
  intro c isHead
  cases isFlags : conversion.flags with
  | cons flag flags =>
    rw [isFlags, map_cons, cons_append, head?_cons, mem_some_iff] at isHead
    rw [← isHead]
    cases flag <;> rfl
  | nil =>
    have ends := conversion.letter_ends
    rw [isFlags, map_nil, nil_append, Conversion.pointBytes] at isHead
    cases isPoint : conversion.point with
    | some digits =>
      rw [isPoint] at isHead
      cases isHead
      rfl
    | none =>
      rw [isPoint, isSome_none, if_neg (by simp)] at ends
      rw [isPoint] at isHead
      cases isHead
      exact ends.2 isFlags

theorem zero_head :
    (conversion.bytes ++ fmt).head? = some '0'.toUInt8 ↔ conversion.digits.head? = some '0'.toUInt8 := by
  have ends := width_ends conversion fmt
  rw [Conversion.bytes]
  cases conversion.digits with
  | cons c digits => rfl
  | nil =>
    simp only [nil_append, append_assoc, singleton_append, head?_nil]
    constructor
    · intro isZero
      exact absurd (ends _ isZero) (by decide)
    · nofun

theorem read_spec (args : List Arg) : readSpec (conversion.bytes ++ fmt) (conversion.lengths ++ args) =
      some (conversion.spec, conversion.letter :: fmt, args) := by
  have isZero := zero_head conversion fmt
  have isText : conversion.bytes ++ fmt = conversion.digits ++
      (conversion.flags.map Flag.byte ++ (conversion.pointBytes ++ conversion.letter :: fmt)) := by
    simp [Conversion.bytes]
  rw [readSpec, if_congr isZero rfl rfl, isText,
    read_width _ _ conversion.digits_plain (width_ends conversion fmt),
    Conversion.lengths]
  dsimp only
  rw [read_flags, read_end]
  rfl

end

variable {buf : Buffer} {c : Byte} {piece fmt : Bytes} {last fuel : Nat}

section Writing

variable {last : Nat}

theorem writes_padding (zero : Byte) (missing : Nat) :
    Writes last (padding last zero missing) (List.replicate missing zero) := by
  induction missing with
  | zero =>
    intro buf inside
    exact fill_nil.symm
  | succ missing ih =>
    intro buf inside
    rw [padding]
    by_cases room : buf.position < last
    · rw [if_pos room, put_eq_fill room, ih _ (position_fill_le inside _), fill_fill]
      rfl
    · rw [if_neg room, fill_full (Nat.le_of_not_lt room)]

theorem writes_num (ui64 : Nat) (zero : Byte) (hexadecimal width : Nat) :
    Writes last (ngxSprintfNum last ui64 zero hexadecimal width) (numText ui64 zero hexadecimal width) := by
  intro buf inside
  rw [ngxSprintfNum, writes_padding zero _ buf inside, numText, ← fill_fill]
  generalize buf.fill last (List.replicate (width - (digitsOf ui64 hexadecimal).length) zero) = padded
  rw [TextWriter.fill]
  split_ifs with long
  · rfl
  · rw [take_length, take_of_length_le (by omega)]

theorem print_number_fill (number : Number) (room : buf.position < last) :
    printNumber last number buf = buf.fill last (numberText number) := by
  have inside := le_of_lt room
  rw [printNumber, numberText]
  split_ifs
  · rw [put_eq_fill room, writes_num _ _ _ _ _ (position_fill_le inside _), fill_fill]
    rfl
  · exact writes_num _ _ _ _ buf inside
  · exact writes_num _ _ _ _ buf inside

theorem copy_len_fill {len : Nat} {p : Bytes} (enough : len ≤ p.length) (buf : Buffer) :
    copyLen last len p buf = some (buf.fill last (p.take len)) := by
  rw [copyLen, if_pos (le_trans (Nat.min_le_right _ _) enough), TextWriter.fill, take_take]

theorem copy_chars_fill (text more : Bytes) (noNul : 0 ∉ text) (inside : buf.position ≤ last) :
    copyChars last (text ++ 0 :: more) buf = some (buf.fill last text) := by
  induction text generalizing buf with
  | nil =>
    rw [fill_nil]
    rfl
  | cons c text ih =>
    have isText : c ≠ 0 := fun same => noNul (same ▸ mem_cons_self)
    rw [cons_append, copyChars]
    by_cases room : buf.position < last
    · rw [if_pos (by simp [isText, room]), put_eq_fill room,
        ih (fun mem => noNul (mem_cons_of_mem c mem)) (position_fill_le inside _), fill_fill]
      rfl
    · rw [if_neg (by simp [room]), fill_full (Nat.le_of_not_lt room)]

theorem convert_other (other : c ∉ ownLetters) (spec : Spec) (args : List Arg) (buf : Buffer) :
    convert last spec c args buf =
      match readNumber spec c with
      | some read =>
        match args with
        | .integer value :: args => some (printNumber last (read value) buf, args)
        | _ => none
      | none => some (buf.put c, args) := by
  have others : ∀ d ∈ ownLetters, c ≠ d := fun d mem same => other (same ▸ mem)
  iterate 8 apply (if_neg (others _ (by decide))).trans
  rfl

theorem convert_fill {spec : Spec} {taken : List Arg}
    (converts : Converts spec c taken piece) (args : List Arg) (room : buf.position < last) :
    convert last spec c (taken ++ args) buf = some (buf.fill last piece, args) := by
  cases converts with
  | str v | variableValue vv =>
    change (copyLen last piece.length piece buf).map (·, args) = _
    rw [copy_len_fill le_rfl, take_length]
    rfl
  | terminated text more isMax noNul =>
    change (if spec.slen = sizeMax then (copyChars last (piece ++ 0 :: more) buf).map (·, args)
      else (copyLen last spec.slen (piece ++ 0 :: more) buf).map (·, args)) = _
    rw [if_pos isMax, copy_chars_fill _ more noNul (le_of_lt room)]
    rfl
  | counted p notMax enough =>
    change (if spec.slen = sizeMax then (copyChars last p buf).map (·, args)
      else (copyLen last spec.slen p buf).map (·, args)) = _
    rw [if_neg notMax, copy_len_fill enough]
    rfl
  | char d =>
    change some (buf.put (unsignedType 8 d).toUInt8, args) = _
    rw [put_eq_fill room]
  | nul =>
    change some (buf.put 0, args) = _
    rw [put_eq_fill room]
  | newline =>
    change some (buf.put '\n'.toUInt8, args) = _
    rw [put_eq_fill room]
  | percent =>
    change some (buf.put '%'.toUInt8, args) = _
    rw [put_eq_fill room]
  | number c read value other isNumber =>
    rw [convert_other other, isNumber, singleton_append]
    dsimp only
    rw [print_number_fill _ room]
  | other c other isOther =>
    rw [convert_other other, isOther, nil_append]
    rw [put_eq_fill room]

end Writing

theorem format_stop (more : Bytes) (args : List Arg) (buf : Buffer) :
    formatLoop last (fuel + 1) (0 :: more) args buf = some buf := by
  rw [formatLoop, if_neg (by simp)]

theorem format_full (nonempty : fmt ≠ []) (args : List Arg)
    (full : last ≤ buf.position) : formatLoop last (fuel + 1) fmt args buf = some buf := by
  obtain ⟨first, rest, isFmt⟩ := exists_cons_of_ne_nil nonempty
  rw [isFmt, formatLoop, if_neg (by simp [Nat.not_lt_of_le full])]

theorem format_plain (inside : c ≠ 0) (isPlain : c ≠ '%'.toUInt8) (fmt : Bytes)
    (args : List Arg) (room : buf.position < last) :
    formatLoop last (fuel + 1) (c :: fmt) args buf = formatLoop last fuel fmt args (buf.put c) := by
  rw [formatLoop, if_pos (by simp [inside, room]), if_neg isPlain]

theorem format_conversion (conversion : Conversion) {taken : List Arg}
    (converts : Converts conversion.spec conversion.letter taken piece) (fmt : Bytes) (args : List Arg)
    (room : buf.position < last) : formatLoop last (fuel + 1) ('%'.toUInt8 :: (conversion.bytes ++ fmt))
        (conversion.lengths ++ (taken ++ args)) buf =
      formatLoop last fuel fmt args (buf.fill last piece) := by
  have isPercent : '%'.toUInt8 ≠ (0 : Byte) := by decide
  rw [formatLoop, if_pos (by simp [isPercent, room]), if_pos rfl, read_spec]
  dsimp only
  rw [convert_fill converts args room]
  rfl

theorem format_fill (formats : Formats fmt args text)
    (last : Nat) (enough : fmt.length ≤ fuel) (buf : Buffer) :
    formatLoop last fuel fmt args buf = some (buf.fill last text) := by
  induction formats generalizing fuel buf with
  | stop more args =>
    cases fuel with
    | zero => simp at enough
    | succ fuel => rw [format_stop, fill_nil]
  | @plain c fmt args text inside isPlain rest ih =>
    cases fuel with
    | zero => simp at enough
    | succ fuel =>
      by_cases room : buf.position < last
      · rw [format_plain inside isPlain fmt args room, put_eq_fill room,
          ih (Nat.le_of_succ_le_succ enough), fill_fill]
        rfl
      · have full := Nat.le_of_not_lt room
        rw [format_full (cons_ne_nil _ _) args full, fill_full full]
  | @conversion conversion taken piece fmt args text converts rest ih =>
    cases fuel with
    | zero => simp at enough
    | succ fuel =>
      by_cases room : buf.position < last
      · have remains : fmt.length ≤ fuel := by
          rw [length_cons, length_append] at enough
          omega
        rw [format_conversion conversion converts fmt args room, ih remains, fill_fill]
      · have full := Nat.le_of_not_lt room
        rw [format_full (cons_ne_nil _ _) _ full, fill_full full]

theorem formats_plain {plain : Bytes} (isPlain : ∀ c ∈ plain, c ≠ 0 ∧ c ≠ '%'.toUInt8)
    (formats : Formats fmt args text) :
    Formats (plain ++ fmt) args (plain ++ text) := by
  induction plain with
  | nil => exact formats
  | cons c plain ih =>
    have own := isPlain c mem_cons_self
    exact .plain c own.1 own.2 (ih (fun d mem => isPlain d (mem_cons_of_mem c mem)))

theorem sprintf_text (formats : Formats fmt args text)
    {buf : Nat} (room : buf + text.length ≤ sizeMax) :
    ngxSprintf buf fmt args = some (text, buf + text.length) := by
  have enough : text.length ≤ sizeMax - buf := by omega
  rw [ngxSprintf, ngxVslprintf, format_fill formats sizeMax le_rfl, fill_room enough]
  rfl

/-- For every buffer, what is written is the text up to the limit, and the returned pointer
is behind it. -/
theorem vslprintf_truncates {fmt : Bytes} {args : List Arg} {text : Bytes} (formats : Formats fmt args text)
    (buf last : Nat) :
    ngxVslprintf buf last fmt args = some (text.take (last - buf), buf + min text.length (last - buf)) := by
  rw [ngxVslprintf, format_fill formats last le_rfl]
  simp [TextWriter.fill, TextWriter.copy, min_comm]

/-- `%02d`. -/
def twoDigits : Conversion where
  digits := ['0'.toUInt8, '2'.toUInt8]
  flags := []
  point := none
  letter := 'd'.toUInt8
  digits_plain := by decide +kernel
  point_plain := by decide +kernel
  letter_ends := by decide
  letter_inside := by decide

theorem truncates_in_number : ngxVslprintf 100 102 ("a%02d".toList.map Char.toUInt8 ++ [0]) [.integer 7] =
      some ("a0".toList.map Char.toUInt8, 102) := by
  have isFmt : "a%02d".toList.map Char.toUInt8 ++ [0] =
      'a'.toUInt8 :: '%'.toUInt8 :: (twoDigits.bytes ++ [0]) := by decide
  have converts : Converts twoDigits.spec twoDigits.letter [.integer 7] ("07".toList.map Char.toUInt8) := by
    have isNumber := Converts.number twoDigits.letter (twoDigits.spec.eitherNumber 32) 7 (by decide) rfl
    exact (by decide : numberText (twoDigits.spec.eitherNumber 32 7) =
      "07".toList.map Char.toUInt8) ▸ isNumber
  have formats : Formats ('a'.toUInt8 :: '%'.toUInt8 :: (twoDigits.bytes ++ [0])) [.integer 7]
      ("a07".toList.map Char.toUInt8) :=
    .plain 'a'.toUInt8 (by decide) (by decide) (.conversion twoDigits converts (.stop [] []))
  rw [isFmt, vslprintf_truncates formats 100 102]
  decide

end ServerCore.NginxSprintfBound
