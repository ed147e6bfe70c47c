import ServerCore.ByteTable
import ServerCore.NginxEscapeUri
import Mathlib.Data.List.Count

/-!
# When an escaped URI is read back

All the maps escape the `%` itself but the one of the refresh type. With it, a
text with a `%` is never read back: a `%` that is dropped is missing at the end,
and the two escapes that give a `%` shift what follows against the text.
-/

namespace ServerCore.NginxEscapeUriRoundTrip

open NginxHttpParse (Byte Bytes)
open NginxHttpUnsafeUri NginxEscapeUri List Option

variable {s : Bytes} {c : Byte} {type : EscapeType}

def percent : Byte := '%'.toUInt8

def hexValue (c : Byte) : Option Byte :=
  if '0'.toUInt8 ≤ c ∧ c ≤ '9'.toUInt8 then some (c - '0'.toUInt8)
  else if 'a'.toUInt8 ≤ c ||| 0x20 ∧ c ||| 0x20 ≤ 'f'.toUInt8 then some ((c ||| 0x20) - 'a'.toUInt8 + 10)
  else none

/-- The count is the growth of the text, and the text is read back. -/
structure RoundTrips (type : EscapeType) (s : Bytes) : Prop where
  length : (ngxEscapeUri s type).length = s.length + 2 * ngxEscapeUriCount s type
  unescaped : (ngxUnescapeUri (ngxEscapeUri s type) 0).1 = s

/-- What the decoder writes for the rest of the source, in each of its states. -/
def usual (s : Bytes) : Bytes := (Unescape.loop 0 .swUsual 0 0 s).1

def quoted (s : Bytes) : Bytes := (Unescape.loop 0 .swQuoted 0 0 s).1

def second (decoded : Byte) (s : Bytes) : Bytes := (Unescape.loop 0 .swQuotedSecond decoded 0 s).1

theorem turn_usual (decoded first c : Byte) : Unescape.turn 0 .swUsual decoded first c =
      if c = percent then ⟨[], some (.swQuoted, decoded)⟩ else ⟨[c], some (.swUsual, decoded)⟩ := by
  have noType : ¬ (c = '?'.toUInt8 ∧ 0 &&& (Unescape.typeUri ||| Unescape.typeRedirect) ≠ 0) :=
    fun both => both.2 rfl
  rw [Unescape.turn, Unescape.swUsual, if_neg noType]
  rfl

theorem turn_quoted (decoded first c : Byte) : Unescape.turn 0 .swQuoted decoded first c =
      (hexValue c).elim ⟨[c], some (.swUsual, decoded)⟩
        (fun value => ⟨[], some (.swQuotedSecond, value)⟩) := by
  rw [Unescape.turn, Unescape.swQuoted, hexValue]
  dsimp only
  split_ifs <;> rfl

theorem add_sub (a b c : Byte) : a + b - c = a + (b - c) := by
  rw [UInt8.sub_eq_add_neg, UInt8.sub_eq_add_neg, UInt8.add_assoc]

theorem turn_second (decoded first c : Byte) : Unescape.turn 0 .swQuotedSecond decoded first c =
      (hexValue c).elim ⟨[], some (.swUsual, decoded)⟩
        (fun value => ⟨[(decoded <<< 4) + value], some (.swUsual, decoded)⟩) := by
  have noUri : ¬ (0 &&& Unescape.typeUri ≠ 0) := fun nonzero => nonzero rfl
  have noRedirect : ¬ (0 &&& Unescape.typeRedirect ≠ 0) := fun nonzero => nonzero rfl
  rw [Unescape.turn, Unescape.swQuotedSecond, hexValue]
  dsimp only
  split_ifs with digit letter
  · rw [elim_some, add_sub]
  · rw [elim_some, add_sub, UInt8.add_assoc]
  · rfl

theorem loop_eq (decoded first : Byte) (s : Bytes) :
    (Unescape.loop 0 .swUsual decoded first s).1 = usual s ∧
      (Unescape.loop 0 .swQuoted decoded first s).1 = quoted s ∧
      (Unescape.loop 0 .swQuotedSecond decoded first s).1 = second decoded s := by
  induction s generalizing decoded first with
  | nil => exact ⟨rfl, rfl, rfl⟩
  | cons c s ih =>
    refine ⟨?_, ?_, ?_⟩
    · rw [usual, Unescape.loop, Unescape.loop, turn_usual, turn_usual]
      split_ifs
      · exact (ih decoded c).2.1.trans (ih 0 c).2.1.symm
      · exact congrArg (List.cons c) ((ih decoded c).1.trans (ih 0 c).1.symm)
    · rw [quoted, Unescape.loop, Unescape.loop, turn_quoted, turn_quoted]
      cases hexValue c with
      | none => exact congrArg (List.cons c) ((ih decoded c).1.trans (ih 0 c).1.symm)
      | some value => rfl
    · rw [second, Unescape.loop, Unescape.loop, turn_second, turn_second]

theorem usual_cons (c : Byte) (s : Bytes) :
    usual (c :: s) = if c = percent then quoted s else c :: usual s := by
  rw [usual, Unescape.loop, turn_usual]
  split_ifs
  · exact (loop_eq 0 c s).2.1
  · exact congrArg (List.cons c) (loop_eq 0 c s).1

theorem quoted_cons (c : Byte) (s : Bytes) :
    quoted (c :: s) = (hexValue c).elim (c :: usual s) (fun value => second value s) := by
  rw [quoted, Unescape.loop, turn_quoted]
  cases hexValue c with
  | none => exact congrArg (List.cons c) (loop_eq 0 c s).1
  | some value => exact (loop_eq value c s).2.2

theorem second_cons (decoded c : Byte) (s : Bytes) : second decoded (c :: s) =
      (hexValue c).elim (usual s) (fun value => ((decoded <<< 4) + value) :: usual s) := by
  rw [second, Unescape.loop, turn_second]
  cases hexValue c with
  | none => exact (loop_eq decoded c s).1
  | some value => exact congrArg (List.cons _) (loop_eq decoded c s).1

theorem usual_percent (s : Bytes) : usual (percent :: s) = quoted s := by
  rw [usual_cons, if_pos rfl]

variable {c : Byte} {s : Bytes}

theorem usual_plain (plain : c ≠ percent) (s : Bytes) : usual (c :: s) = c :: usual s := by
  rw [usual_cons, if_neg plain]

section Escaping

def high (c : Byte) : Byte := hex.getD (c >>> 4).toNat 0

def low (c : Byte) : Byte := hex.getD (c &&& 0xf).toNat 0

theorem high_value (c : Byte) : hexValue (high c) = some (c >>> 4) := by
  revert c
  exact ByteTable.forall_byte (by decide)

theorem low_value (c : Byte) : hexValue (low c) = some (c &&& 0xf) := by
  revert c
  exact ByteTable.forall_byte (by decide)

theorem joined (c : Byte) : ((c >>> 4) <<< 4) + (c &&& 0xf) = c := by
  revert c
  exact ByteTable.forall_byte (by decide)

variable (escape : List UInt32)

theorem count_loop_from (n : Nat) (s : Bytes) : countLoop escape n s = n + countLoop escape 0 s := by
  induction s generalizing n with
  | nil => rfl
  | cons c s ih =>
    rw [countLoop, countLoop, ih (if isEscaped escape c then n + 1 else n),
      ih (if isEscaped escape c then 0 + 1 else 0)]
    split_ifs <;> omega

theorem length_write_loop : (writeLoop escape s).length = s.length + 2 * countLoop escape 0 s := by
  induction s with
  | nil => rfl
  | cons c s ih =>
    rw [writeLoop, countLoop, count_loop_from]
    split_ifs <;> simp only [length_cons, ih] <;> omega

variable {escape}

theorem write_escaped (escaped : isEscaped escape c) (s : Bytes) :
    writeLoop escape (c :: s) = percent :: high c :: low c :: writeLoop escape s := by
  rw [writeLoop, if_pos escaped]
  rfl

theorem write_plain (plain : ¬ isEscaped escape c) (s : Bytes) :
    writeLoop escape (c :: s) = c :: writeLoop escape s := by
  rw [writeLoop, if_neg plain]

theorem usual_escaped (c : Byte) (s : Bytes) : usual (percent :: high c :: low c :: s) = c :: usual s := by
  rw [usual_percent, quoted_cons, high_value, elim_some, second_cons, low_value, elim_some, joined]

theorem read_back (safe : percent ∈ s → isEscaped escape percent) : usual (writeLoop escape s) = s := by
  induction s with
  | nil => rfl
  | cons c s ih =>
    have tail := ih (fun mem => safe (mem_cons_of_mem c mem))
    by_cases escaped : isEscaped escape c
    · rw [write_escaped escaped, usual_escaped, tail]
    · have plain : c ≠ percent := by
        intro isPercent
        rw [isPercent] at escaped safe
        exact escaped (safe mem_cons_self)
      rw [write_plain escaped, usual_plain plain, tail]

end Escaping

section Raw

variable {escape : List UInt32}

structure LeavesPercent (escape : List UInt32) : Prop where
  percent_plain : ¬ isEscaped escape percent
  digit_plain : ∀ c, hexValue c ≠ none → ¬ isEscaped escape c

def decode (escape : List UInt32) (s : Bytes) : Bytes := usual (writeLoop escape s)

def decodeQuoted (escape : List UInt32) (s : Bytes) : Bytes := quoted (writeLoop escape s)

theorem digit_not_percent (digit : hexValue c ≠ none) : c ≠ percent := by
  rintro rfl
  exact digit (by decide)

theorem high_not_percent : high c ≠ percent := by
  apply digit_not_percent
  rw [high_value]
  exact some_ne_none _

theorem low_not_percent : low c ≠ percent := by
  apply digit_not_percent
  rw [low_value]
  exact some_ne_none _

theorem decode_cons_escaped (escaped : isEscaped escape c) :
    decode escape (c :: s) = c :: decode escape s := by
  rw [decode, write_escaped escaped, usual_escaped]
  rfl

theorem decode_cons_plain (plain : ¬ isEscaped escape c) (notPercent : c ≠ percent) :
    decode escape (c :: s) = c :: decode escape s := by
  rw [decode, write_plain plain, usual_plain notPercent]
  rfl

theorem decode_cons_other (notPercent : c ≠ percent) (s : Bytes) :
    decode escape (c :: s) = c :: decode escape s := by
  by_cases escaped : isEscaped escape c
  · exact decode_cons_escaped escaped
  · exact decode_cons_plain escaped notPercent

theorem decode_percent (leaves : LeavesPercent escape) (s : Bytes) :
    decode escape (percent :: s) = decodeQuoted escape s := by
  rw [decode, write_plain leaves.percent_plain, usual_percent]
  rfl

/-- What the decoder makes of a text behind a `%`, by its first characters. -/
inductive Quoted (escape : List UInt32) : Bytes → Bytes → Prop where
  | nil : Quoted escape [] []
  | escaped (x : Byte) (r : Bytes) : isEscaped escape x →
      Quoted escape (x :: r) (percent :: high x :: low x :: decode escape r)
  | percent (r : Bytes) : Quoted escape (percent :: r) (percent :: decode escape r)
  | other (x : Byte) (r : Bytes) : x ≠ NginxEscapeUriRoundTrip.percent → hexValue x = none →
      Quoted escape (x :: r) (x :: decode escape r)
  | digit (x : Byte) : hexValue x ≠ none → Quoted escape [x] []
  | digitEscaped (x y : Byte) (r : Bytes) : hexValue x ≠ none → isEscaped escape y →
      Quoted escape (x :: y :: r) (high y :: low y :: decode escape r)
  | digitOther (x y : Byte) (r : Bytes) : hexValue x ≠ none → hexValue y = none →
      Quoted escape (x :: y :: r) (decode escape r)
  | digits (x y first second : Byte) (r : Bytes) : hexValue x = some first → hexValue y = some second →
      Quoted escape (x :: y :: r) (((first <<< 4) + second) :: decode escape r)

theorem decode_quoted_shape (s : Bytes) : Quoted escape s (decodeQuoted escape s) := by
  have noValue : hexValue percent = none := by decide
  cases s with
  | nil => exact Quoted.nil
  | cons x r =>
    by_cases escaped : isEscaped escape x
    · have shape : decodeQuoted escape (x :: r) = percent :: high x :: low x :: decode escape r := by
        rw [decodeQuoted, write_escaped escaped, quoted_cons, noValue, elim_none,
          usual_plain high_not_percent, usual_plain low_not_percent]
        rfl
      rw [shape]
      exact Quoted.escaped x r escaped
    · cases isDigit : hexValue x with
      | none =>
        have shape : decodeQuoted escape (x :: r) = x :: decode escape r := by
          rw [decodeQuoted, write_plain escaped, quoted_cons, isDigit]
          rfl
        rw [shape]
        by_cases isPercent : x = percent
        · rw [isPercent]
          exact Quoted.percent r
        · exact Quoted.other x r isPercent isDigit
      | some first =>
        have digit : hexValue x ≠ none := by
          rw [isDigit]
          exact some_ne_none first
        have behind : decodeQuoted escape (x :: r) = second first (writeLoop escape r) := by
          rw [decodeQuoted, write_plain escaped, quoted_cons, isDigit]
          rfl
        rw [behind]
        cases r with
        | nil => exact Quoted.digit x digit
        | cons y r =>
          by_cases escaped' : isEscaped escape y
          · have shape : second first (writeLoop escape (y :: r)) = high y :: low y :: decode escape r := by
              rw [write_escaped escaped', second_cons, noValue, elim_none,
                usual_plain high_not_percent, usual_plain low_not_percent]
              rfl
            rw [shape]
            exact Quoted.digitEscaped x y r digit escaped'
          · rw [write_plain escaped', second_cons]
            cases isDigit' : hexValue y with
            | none => exact Quoted.digitOther x y r digit isDigit'
            | some next => exact Quoted.digits x y first next r isDigit isDigit'

section

variable (leaves : LeavesPercent escape)
include leaves

theorem escaped_not_percent (escaped : isEscaped escape c) : c ≠ percent := by
  rintro rfl
  exact leaves.percent_plain escaped

theorem count_quoted {out : Bytes} (shape : Quoted escape s out)
    (counts : ∀ r : Bytes, r.length < s.length → (decode escape r).count percent ≤ r.count percent) :
    out.count percent ≤ s.count percent + 1 ∧
      ((∃ rest, out = percent :: rest) ∨ out.count percent ≤ s.count percent) := by
  cases shape with
  | nil => exact ⟨Nat.zero_le _, Or.inr (Nat.le_refl _)⟩
  | escaped x r escaped =>
    have tail := counts r (by simp)
    rw [count_cons_self, count_cons_of_ne high_not_percent, count_cons_of_ne low_not_percent,
      count_cons_of_ne (escaped_not_percent leaves escaped)]
    exact ⟨by omega, Or.inl ⟨_, rfl⟩⟩
  | percent r =>
    have tail := counts r (by simp)
    rw [count_cons_self, count_cons_self]
    exact ⟨by omega, Or.inr (by omega)⟩
  | other x r apart _ =>
    have tail := counts r (by simp)
    rw [count_cons_of_ne apart, count_cons_of_ne apart]
    exact ⟨by omega, Or.inr tail⟩
  | digit x digit => exact ⟨Nat.zero_le _, Or.inr (Nat.zero_le _)⟩
  | digitEscaped x y r digit escaped =>
    have tail := counts r (by simp only [length_cons]; omega)
    rw [count_cons_of_ne high_not_percent, count_cons_of_ne low_not_percent,
      count_cons_of_ne (digit_not_percent digit), count_cons_of_ne (escaped_not_percent leaves escaped)]
    exact ⟨by omega, Or.inr tail⟩
  | digitOther x y r digit other =>
    have tail := counts r (by simp only [length_cons]; omega)
    have more : r.count percent ≤ (y :: r).count percent := count_le_count_cons
    rw [count_cons_of_ne (digit_not_percent digit)]
    exact ⟨by omega, Or.inr (by omega)⟩
  | digits x y first next r isDigit isDigit' =>
    have tail := counts r (by simp only [length_cons]; omega)
    have digit : hexValue x ≠ none := isDigit ▸ some_ne_none first
    have digit' : hexValue y ≠ none := isDigit' ▸ some_ne_none next
    rw [count_cons_of_ne (digit_not_percent digit), count_cons_of_ne (digit_not_percent digit')]
    by_cases isPercent : (first <<< 4) + next = percent
    · rw [isPercent, count_cons_self]
      exact ⟨by omega, Or.inl ⟨_, rfl⟩⟩
    · rw [count_cons_of_ne isPercent]
      exact ⟨by omega, Or.inr tail⟩

theorem count_decode (s : Bytes) : (decode escape s).count percent ≤ s.count percent := by
  induction many : s.length using Nat.strong_induction_on generalizing s with
  | _ many ih =>
    cases s with
    | nil => exact le_rfl
    | cons c s =>
      rw [length_cons] at many
      by_cases isPercent : c = percent
      · have counted := count_quoted leaves (decode_quoted_shape s)
          (fun r shorter => ih r.length (by omega) r rfl)
        rw [isPercent, decode_percent leaves, count_cons_self]
        exact counted.1
      · rw [decode_cons_other isPercent, count_cons_of_ne isPercent, count_cons_of_ne isPercent]
        exact ih s.length (by omega) s rfl

theorem decode_not_shifted (s : Bytes) (p q : Byte) (pPlain : p ≠ percent)
    (qPlain : q ≠ percent) : decode escape s ≠ p :: q :: s := by
  induction s generalizing p q with
  | nil => exact (cons_ne_nil _ _).symm
  | cons c s ih =>
    intro shifted
    by_cases isPercent : c = percent
    · rw [isPercent, decode_percent leaves] at shifted
      have counted := count_quoted leaves (decode_quoted_shape s) (fun r _ => count_decode leaves r)
      rw [shifted] at counted
      rcases counted.2 with starts | fewer
      · obtain ⟨rest, isFirst⟩ := starts
        exact pPlain (List.cons.inj isFirst).1
      · rw [count_cons_of_ne pPlain, count_cons_of_ne qPlain, count_cons_self] at fewer
        omega
    · rw [decode_cons_other isPercent] at shifted
      have parts := List.cons.inj shifted
      have isNext := parts.2
      rw [parts.1] at isNext
      exact ih q p qPlain pPlain isNext

end

theorem decode_append {front : Bytes} (plain : percent ∉ front) (back : Bytes) :
    decode escape (front ++ back) = front ++ decode escape back := by
  induction front with
  | nil => rfl
  | cons c front ih =>
    have parts : percent ≠ c ∧ percent ∉ front := by simpa [mem_cons, not_or] using plain
    rw [cons_append, decode_cons_other (Ne.symm parts.1), ih parts.2, cons_append]

theorem decode_ne (leaves : LeavesPercent escape) (mem : percent ∈ s) : decode escape s ≠ s := by
  obtain ⟨front, r, split, plain⟩ := eq_append_cons_of_mem mem
  intro same
  rw [split, decode_append plain, decode_percent leaves] at same
  have behind := append_cancel_left same
  generalize isOut : decodeQuoted escape r = out at behind
  have shape := @decode_quoted_shape escape r
  rw [isOut] at shape
  cases shape with
  | nil => cases behind
  | escaped x r escaped =>
    have isDigit := (List.cons.inj (List.cons.inj behind).2).1
    rw [← isDigit] at escaped
    have digit : hexValue (high x) ≠ none := by
      rw [high_value]
      exact some_ne_none _
    exact leaves.digit_plain _ digit escaped
  | percent r =>
    have counted := count_decode leaves r
    rw [(List.cons.inj behind).2, count_cons_self] at counted
    omega
  | other x r apart _ => exact apart (List.cons.inj behind).1
  | digit x digit => cases behind
  | digitEscaped x y r digit escaped => exact high_not_percent (List.cons.inj behind).1
  | digitOther x y r digit other =>
    have counted := count_decode leaves r
    have more : r.count percent ≤ (x :: y :: r).count percent :=
      count_le_count_cons.trans count_le_count_cons
    rw [behind, count_cons_self] at counted
    omega
  | digits x y first next r isDigit isDigit' =>
    have digit : hexValue x ≠ none := isDigit ▸ some_ne_none first
    have digit' : hexValue y ≠ none := isDigit' ▸ some_ne_none next
    exact decode_not_shifted leaves r x y (digit_not_percent digit) (digit_not_percent digit')
      (List.cons.inj behind).2

end Raw

theorem refresh_leaves_percent : LeavesPercent refresh where
  percent_plain := by decide
  digit_plain := ByteTable.forall_byte (by decide)

theorem percent_escaped (other : type ≠ .refresh) : isEscaped (map type) percent := by
  cases type <;> first | decide | cases other rfl

theorem escape_length : (ngxEscapeUri s type).length = s.length + 2 * ngxEscapeUriCount s type :=
  length_write_loop (map type)

/-- Every text is read back unless it has a `%` and is escaped by the refresh type. -/
theorem round_trips_iff (type : EscapeType) (s : Bytes) :
    RoundTrips type s ↔ type ≠ .refresh ∨ percent ∉ s := by
  constructor
  · intro roundTrips
    by_contra neither
    rw [not_or, not_not, not_not] at neither
    have unescaped := roundTrips.unescaped
    rw [neither.1] at unescaped
    exact decode_ne refresh_leaves_percent neither.2 unescaped
  · intro cond
    refine ⟨escape_length, ?_⟩
    apply read_back
    intro mem
    rcases cond with other | absent
    · exact percent_escaped other
    · exact absurd mem absent

theorem percent_lost : (ngxUnescapeUri (ngxEscapeUri [percent] .refresh) 0).1 = [] ∧
    ¬ RoundTrips .refresh [percent] := by
  have lost : (ngxUnescapeUri (ngxEscapeUri [percent] .refresh) 0).1 = [] := by decide
  refine ⟨lost, ?_⟩
  intro roundTrips
  exact absurd (lost.symm.trans roundTrips.unescaped) (by decide)

end ServerCore.NginxEscapeUriRoundTrip
