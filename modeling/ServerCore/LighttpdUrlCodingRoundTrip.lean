import ServerCore.LighttpdUrlCoding

/-!
# What is decoded from an encoded URL

The loops of the decoder write what `decoded` gives for the bytes in front of
the zero, as they never write over a byte that is still to be read.
-/

namespace ServerCore.LighttpdUrlCodingRoundTrip

open LighttpdBuffer LighttpdUrlCoding List Function

variable {isQuery : Bool} {s : Bytes}

def decoded (isQuery : Bool) : Bytes → Bytes
  | [] => []
  | c :: rest =>
    if isQuery ∧ c = '+'.toUInt8 then ' '.toUInt8 :: decoded isQuery rest
    else if c = '%'.toUInt8 ∧ hex2int (rest.getD 0 0) ≠ 0xff ∧ hex2int (rest.getD 1 0) ≠ 0xff then
      unescaped (hex2int (rest.getD 0 0)) (hex2int (rest.getD 1 0)) :: decoded isQuery (rest.drop 2)
    else c :: decoded isQuery rest
termination_by rest => rest.length
decreasing_by all_goals simp only [List.length_cons, List.length_drop]; omega

section Loops

variable (isQuery : Bool) {memory : Nat → Byte} {src dst : Nat} {c : Byte} {rest : Bytes}

theorem holds_update (holds : Holds memory src (c :: rest)) (behind : dst ≤ src) (value : Byte) :
    Holds (update memory dst value) (src + 1) rest := by
  intro index inside
  have same := holds (index + 1) (Nat.succ_le_succ inside)
  rw [update_of_ne (by omega), ← getD_cons_succ (x := c), ← same]
  congr 1
  omega

theorem hex_inside {index : Nat} (valid : hex2int (rest.getD index 0) ≠ 0xff) : index < rest.length := by
  by_contra outside
  rw [getD_eq_default _ _ (Nat.not_lt.mp outside)] at valid
  exact valid (by decide)

theorem decode_loop_eq {fuel : Nat} (holds : Holds memory src rest) (noNul : 0 ∉ rest) (behind : dst ≤ src)
    (enough : rest.length < fuel) : decodeLoop isQuery fuel memory src dst =
      some (fill memory dst (decoded isQuery rest), dst + (decoded isQuery rest).length) := by
  induction fuel generalizing memory src dst rest with
  | zero => cases enough
  | succ fuel ih =>
    cases rest with
    | nil =>
      have ended : memory src = 0 := holds 0 (Nat.le_refl 0)
      rw [decodeLoop, if_pos ended, decoded]
      rfl
    | cons c rest =>
      have here : memory src = c := holds 0 (Nat.zero_le _)
      have notNul : c ≠ 0 := fun isNul => noNul (isNul ▸ mem_cons_self)
      have noLater : 0 ∉ rest := fun mem => noNul (mem_cons_of_mem c mem)
      have next : ∀ value, decodeLoop isQuery fuel (update memory dst value) (src + 1) (dst + 1) =
          some (fill memory dst (value :: decoded isQuery rest),
            dst + (value :: decoded isQuery rest).length) := by
        intro value
        rw [ih (holds_update holds behind value) noLater (by omega) (by simpa using enough), fill,
          length_cons, Nat.add_assoc, Nat.add_comm 1]
      have after := holds_update holds behind '%'.toUInt8
      rw [decodeLoop, here, if_neg notNul, decoded]
      by_cases plus : isQuery ∧ c = '+'.toUInt8
      · rw [if_pos plus, if_pos plus, next]
      · rw [if_neg plus, if_neg plus]
        by_cases percent : c = '%'.toUInt8
        · have first : update memory dst '%'.toUInt8 (src + 1) = rest.getD 0 0 := after 0 (Nat.zero_le _)
          simp only [if_pos percent, first]
          by_cases high : hex2int (rest.getD 0 0) = 0xff
          · simp only [high, ne_eq, not_true, if_false, false_and, and_false]
            exact percent ▸ next c
          · have second : update memory dst '%'.toUInt8 (src + 2) = rest.getD 1 0 :=
              after 1 (hex_inside high)
            simp only [second]
            by_cases low : hex2int (rest.getD 1 0) = 0xff
            · simp only [high, low, ne_eq, not_true, not_false_eq_true, if_true, if_false, and_false]
              exact percent ▸ next c
            · have two := hex_inside low
              have left : (rest.drop 2).length < fuel := by
                rw [length_drop]
                rw [length_cons] at enough
                omega
              rw [if_pos high, if_pos low, if_pos ⟨percent, high, low⟩, update_idem,
                ih (holds_drop (holds_update holds behind _) 2 two)
                  (fun mem => noLater (mem_of_mem_drop mem))
                  (by omega) left, fill, length_cons, Nat.add_assoc, Nat.add_comm 1]
        · rw [if_neg percent, if_neg (fun escape => percent escape.1), next]

theorem loops_eq (total fuel : Nat) (holds : Holds memory src rest) (noNul : 0 ∉ rest)
    (enough : rest.length < fuel)
    (within : rest.length < total) :
    (plainLoop isQuery fuel memory src).bind
      (fun found => decodeLoop isQuery total found.1 found.2 found.2) =
      some (fill memory src (decoded isQuery rest), src + (decoded isQuery rest).length) := by
  have whole := decode_loop_eq isQuery holds noNul (Nat.le_refl src) within
  induction fuel generalizing memory src rest with
  | zero => cases enough
  | succ fuel ih =>
    cases rest with
    | nil =>
      have ended : memory src = 0 := holds 0 (Nat.le_refl 0)
      rw [plainLoop, if_pos ended]
      exact whole
    | cons c rest =>
      have here : memory src = c := holds 0 (Nat.zero_le _)
      have notNul : c ≠ 0 := fun isNul => noNul (isNul ▸ mem_cons_self)
      have noLater : 0 ∉ rest := fun mem => noNul (mem_cons_of_mem c mem)
      have next : ∀ value, (plainLoop isQuery fuel (update memory src value) (src + 1)).bind
          (fun found => decodeLoop isQuery total found.1 found.2 found.2) =
            some (fill memory src (value :: decoded isQuery rest),
              src + (value :: decoded isQuery rest).length) := by
        intro value
        have moved := holds_update holds (Nat.le_refl src) value
        have shorter : rest.length < total := Nat.lt_of_succ_lt within
        rw [ih moved noLater (by simpa using enough) shorter
          (decode_loop_eq isQuery moved noLater (Nat.le_refl _) shorter), fill, length_cons, Nat.add_assoc,
          Nat.add_comm 1]
      rw [plainLoop, here, if_neg notNul]
      by_cases percent : c = '%'.toUInt8
      · rw [if_pos percent]
        exact whole
      · rw [if_neg percent, decoded]
        by_cases plus : isQuery ∧ c = '+'.toUInt8
        · rw [if_pos plus, if_pos plus, next]
        · have same := next c
          rw [← here, update_eq_self, here] at same
          rw [if_neg plus, if_neg plus, if_neg (fun escape => percent escape.1), same]

end Loops

theorem decoded_length_le (isQuery : Bool) (text : Bytes) : (decoded isQuery text).length ≤ text.length := by
  fun_induction decoded isQuery text with
  | case1 => exact Nat.le_refl 0
  | case2 c rest plus ih => simpa using ih
  | case3 c rest noPlus escape ih =>
    simp only [length_cons, length_drop] at ih ⊢
    omega
  | case4 c rest noPlus noEscape ih => simpa using ih

theorem urldecode_spec {url : Buffer} (sound : Sound url) (noNul : 0 ∉ url.text) :
    ∃ out, bufferUrldecodeInternal isQuery url = some out ∧
    out.text = decoded isQuery url.text ∧ Sound out := by
  by_cases empty : url.used < 2
  · exact ⟨url, if_pos empty, by rw [text_eq_nil empty, decoded], sound⟩
  · have ended := sound.ended (by omega)
    have size := text_length url
    have holds := holds_text sound (by omega)
    have looped := loops_eq isQuery url.used url.used holds noNul (by omega) (by omega)
    have shorter := decoded_length_le isQuery url.text
    have fits := sound.fits
    have result := congrArg (Option.bind · fun found =>
      some { url with ptr := update found.1 found.2 0, used := found.2 + 1 }) looped
    rw [Nat.zero_add, Option.bind_assoc] at result
    refine ⟨{ url with
      ptr := update (fill url.ptr 0 (decoded isQuery url.text)) (decoded isQuery url.text).length 0
      used := (decoded isQuery url.text).length + 1 }, ?_, ?_, ?_, fun _ => update_self _ _ _⟩
    · rw [bufferUrldecodeInternal, if_neg empty, sound.ended (by omega)]
      exact result
    · refine text_append (b := { url with used := 0 }) (Nat.zero_add _).symm (nofun) ?_
      intro index inside
      have apart : 0 + index ≠ (decoded isQuery url.text).length := by omega
      exact (update_of_ne apart _ _).trans (fill_at _ inside)
    · dsimp only
      omega

def Printable (c : Byte) : Prop := ¬ c < 32 ∧ c ≠ 127

theorem decoded_printable {text : Bytes} (printable : ∀ c ∈ text, Printable c) :
    ∀ c ∈ decoded isQuery text, Printable c := by
  fun_induction decoded isQuery text with
  | case1 => exact printable
  | case2 c rest plus ih =>
    rw [forall_mem_cons] at printable ⊢
    exact ⟨by unfold Printable; decide, ih printable.2⟩
  | case3 c rest noPlus escape ih =>
    rw [forall_mem_cons] at printable ⊢
    refine ⟨?_, ih fun other mem => printable.2 other (mem_of_mem_drop mem)⟩
    unfold unescaped Printable
    dsimp only
    split_ifs with control
    · decide
    · exact not_or.mp control
  | case4 c rest noPlus noEscape ih =>
    rw [forall_mem_cons] at printable ⊢
    exact ⟨printable.1, ih printable.2⟩

theorem encode_byte_length (encoding : BufferEncoding) (c : Byte) :
    (encodeByte encoding c).length = encodedLength encoding c := by
  unfold encodeByte encodedLength
  split_ifs
  · cases encoding <;> rfl
  · rfl

theorem encode_spec (fresh : Nat → Byte) (encoding : BufferEncoding) (s : Bytes)
    {b : Buffer} (sound : Sound b) :
    ∃ c, bufferAppendStringEncoded fresh encoding s b = some c ∧
    c.text = b.text ++ s.flatMap (encodeByte encoding) ∧
      Sound c := by
  have size : (s.flatMap (encodeByte encoding)).length = (s.map (encodedLength encoding)).sum := by
    simp [length_flatMap, encode_byte_length]
  by_cases nothing : s = []
  · exact ⟨b, if_pos nothing, by simp [nothing], sound⟩
  · obtain ⟨used, text, ended, room⟩ := prepare_append_spec fresh sound (s.map (encodedLength encoding)).sum
    rw [bufferAppendStringEncoded, if_neg nothing]
    dsimp only
    generalize bufferStringPrepareAppend fresh b (s.map (encodedLength encoding)).sum =
      c at used text ended room ⊢
    have zero : update c.ptr (c.used + (s.map (encodedLength encoding)).sum - 1) 0 (c.used - 1) = 0 := by
      rw [update_apply, ended, ite_self]
    have behind : c.used + (s.map (encodedLength encoding)).sum - 1 =
        c.used - 1 + (s.flatMap (encodeByte encoding)).length := by
      rw [size]
      omega
    refine ⟨{ c with
      ptr := fill (update c.ptr (c.used + (s.map (encodedLength encoding)).sum - 1) 0) (c.used - 1)
        (s.flatMap (encodeByte encoding))
      used := c.used + (s.map (encodedLength encoding)).sum }, ?_, ?_, room, ?_⟩
    · simp [commit_eq used room, zero]
    · rw [← text]
      refine text_append behind ?_ fun index inside => fill_at _ inside
      intro index before
      exact (fill_before _ before).trans (update_of_ne (by omega) _ _)
    · intro _
      exact (fill_behind _ (Nat.le_of_eq behind.symm)).trans (update_self _ _ _)

theorem escaped_or_plain {encoding : BufferEncoding}
    (isUri : encoding = .relUri ∨ encoding = .relUriPart) (c : Byte)
    (printable : Printable c) : (encodeByte encoding c = [c] ∧ c ≠ '%'.toUInt8 ∧ c ≠ '+'.toUInt8) ∨
      (encodeByte encoding c = ['%'.toUInt8, hexChar (c >>> 4), hexChar c] ∧
        hex2int (hexChar (c >>> 4)) ≠ 0xff ∧
        hex2int (hexChar c) ≠ 0xff ∧ unescaped (hex2int (hexChar (c >>> 4))) (hex2int (hexChar c)) = c) := by
  unfold Printable at printable
  revert c
  rcases isUri with rfl | rfl <;> exact ByteTable.forall_byte (by decide)

variable {encoding : BufferEncoding}

theorem encoded_no_nul (isUri : encoding = .relUri ∨ encoding = .relUriPart)
    (printable : ∀ c ∈ s, Printable c) : 0 ∉ s.flatMap (encodeByte encoding) := by
  intro mem
  obtain ⟨c, inText, mem⟩ := mem_flatMap.mp mem
  have isPrintable := printable c inText
  rcases escaped_or_plain isUri c isPrintable with ⟨plain, _, _⟩ | ⟨escaped, high, low, _⟩
  · rw [plain, mem_singleton] at mem
    exact isPrintable.1 (mem ▸ by decide)
  · rw [escaped] at mem
    simp only [mem_cons, not_mem_nil, or_false] at mem
    rcases mem with isPercent | isHigh | isLow
    · exact absurd isPercent (by decide)
    · exact high (isHigh ▸ by decide)
    · exact low (isLow ▸ by decide)

theorem decoded_encoded (isUri : encoding = .relUri ∨ encoding = .relUriPart)
    (printable : ∀ c ∈ s, Printable c) : decoded isQuery (s.flatMap (encodeByte encoding)) = s := by
  induction s with
  | nil => rw [flatMap_nil, decoded]
  | cons c s ih =>
    rw [forall_mem_cons] at printable
    rw [flatMap_cons]
    rcases escaped_or_plain isUri c printable.1 with ⟨plain, percent, plus⟩ | ⟨escaped, high, low, value⟩
    · rw [plain, singleton_append, decoded, if_neg (fun both => plus both.2),
        if_neg (fun both => percent both.1),
        ih printable.2]
    · have noPlus : ¬ (isQuery ∧ '%'.toUInt8 = '+'.toUInt8) := fun both => absurd both.2 (by decide)
      rw [escaped, cons_append, cons_append, singleton_append, decoded, if_neg noPlus]
      refine (if_pos ⟨rfl, high, low⟩).trans ?_
      exact congrArg₂ List.cons value (ih printable.2)

/-- The two passes of the encoder agree, both decoders read back what is encoded for URLs, and a
text without control characters is decoded to one that is not longer. -/
structure Codes : Prop where
  counted : ∀ (fresh : Nat → Byte) (encoding : BufferEncoding) (s : Bytes) {b : Buffer}, Sound b →
    ∃ c, bufferAppendStringEncoded fresh encoding s b = some c ∧
      c.text = b.text ++ s.flatMap (encodeByte encoding) ∧
        c.text.length = b.text.length + (s.map (encodedLength encoding)).sum
  readBack : ∀ (fresh : Nat → Byte) (s : Bytes) {b : Buffer}, (∀ c ∈ s, Printable c) → Sound b →
    b.text = [] →
    ∀ encoding, encoding = .relUri ∨ encoding = .relUriPart →
      ∀ decode ∈ [bufferUrldecodePath, bufferUrldecodeQuery], ∃ encoded out,
        bufferAppendStringEncoded fresh encoding s b = some encoded ∧
        decode encoded = some out ∧ out.text = s
  clean : ∀ {url : Buffer}, Sound url → 0 ∉ url.text → (∀ c ∈ url.text, Printable c) →
    ∀ decode ∈ [bufferUrldecodePath, bufferUrldecodeQuery], ∃ out, decode url = some out ∧
      out.text.length ≤ url.text.length ∧ (∀ c ∈ out.text, c ≠ 0 ∧ Printable c) ∧
        (0 < out.used → out.ptr (out.used - 1) = 0)

theorem url_codes : Codes where
  counted := by
    intro fresh encoding s b sound
    obtain ⟨c, encoded, text, _⟩ := encode_spec fresh encoding s sound
    refine ⟨c, encoded, text, ?_⟩
    rw [text]
    simp [length_flatMap, encode_byte_length]
  readBack := by
    intro fresh s b printable sound empty encoding isUri decode isDecode
    obtain ⟨encoded, isEncoded, text, soundEncoded⟩ := encode_spec fresh encoding s sound
    rw [empty, nil_append] at text
    have back : ∀ isQuery, ∃ out, bufferUrldecodeInternal isQuery encoded = some out ∧ out.text = s := by
      intro isQuery
      obtain ⟨out, isOut, outText, _⟩ := urldecode_spec soundEncoded (text ▸ encoded_no_nul isUri printable)
      rw [text, decoded_encoded isUri printable] at outText
      exact ⟨out, isOut, outText⟩
    simp only [mem_cons, not_mem_nil, or_false] at isDecode
    rcases isDecode with rfl | rfl
    · obtain ⟨out, found⟩ := back false
      exact ⟨encoded, out, isEncoded, found⟩
    · obtain ⟨out, found⟩ := back true
      exact ⟨encoded, out, isEncoded, found⟩
  clean := by
    intro url sound noNul printable decode isDecode
    have every : ∀ isQuery, ∃ out, bufferUrldecodeInternal isQuery url = some out ∧
        out.text.length ≤ url.text.length ∧ (∀ c ∈ out.text, c ≠ 0 ∧ Printable c) ∧
          (0 < out.used → out.ptr (out.used - 1) = 0) := by
      intro isQuery
      obtain ⟨out, isOut, text, soundOut⟩ := urldecode_spec sound noNul
      refine ⟨out, isOut, text ▸ decoded_length_le isQuery _, ?_, soundOut.ended⟩
      intro c mem
      have isPrintable := decoded_printable printable c (text ▸ mem)
      exact ⟨fun isNul => isPrintable.1 (isNul ▸ by decide), isPrintable⟩
    simp only [mem_cons, not_mem_nil, or_false] at isDecode
    rcases isDecode with rfl | rfl
    · exact every false
    · exact every true

/-- "a b" becomes "a%20b" and is read back. -/
example : ((bufferAppendStringEncoded (fun _ => 7) .relUriPart [97, 32, 98]
    ⟨fun _ => 0, 0, 0⟩).bind fun encoded =>
    (bufferUrldecodePath encoded).map fun out => (encoded.text, out.text)) =
      some ([97, 37, 50, 48, 98], [97, 32, 98]) := by
  decide

end ServerCore.LighttpdUrlCodingRoundTrip
