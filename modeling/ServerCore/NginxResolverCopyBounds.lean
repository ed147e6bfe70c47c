import ServerCore.NginxResolverCopy

/-!
# The two passes over a name

The first pass follows the path from the start and ends at a zero byte, at the
end of the response, or after 128 turns. It writes a separator behind each label
that is not in front of a zero byte, so that its text is the one that the first
pass has counted if the path ends with a label, and is longer by one if labels
are followed by a pointer to a zero byte.
-/

namespace ServerCore.NginxResolverCopyBounds

open CheckedReads CompressedNames
open NginxHash (ngxStrlow)
open NginxResolverCopy List

variable {stop : Nat}

def endsInLabel (turns : List Turn) : Bool :=
  match turns.getLast? with
  | some (.label _) => true
  | _ => false

section

variable (input : Bytes) (src : Nat)

/-- The labels of the name at this position, in lower case and with dots between them. -/
def IsName (text : Bytes) : Prop :=
  ∃ turns stop, Path input src turns stop ∧ input[stop]? = some 0 ∧
    text = joined dot ((labelsOf turns).map ngxStrlow)

def Good : Answer → Prop
  | .ngxOk (some name) => name.written.length ≤ name.allocated ∧ IsName input src name.written
  | _ => True

/-- Every run returns, has read bytes of the response only, and is good. -/
def CopiesRight : Prop :=
  ∀ wanted alloc, ∃ answer, ngxResolverCopy wanted alloc input src = .ok answer ∧ Good input src answer

/-- On the way from this position, of fewer than 128 turns, no pointer begins with the last
byte, and the name does not end with a pointer behind a label. -/
def WellEnded : Prop :=
  ∀ turns stop, Path input src turns stop → turns.length < 128 →
    (∀ n, input[stop]? = some n → isPointer n = true → stop + 1 < input.length) ∧
      (input[stop]? = some 0 → labelsOf turns ≠ [] → endsInLabel turns = true)

end

def copiedText : List Turn → Bytes
  | [] => []
  | .pointer :: turns => copiedText turns
  | .label text :: turns => ngxStrlow text ++ ((if turns = [] then [] else [dot]) ++ copiedText turns)

variable {turns : List Turn}

theorem ends_in_label_cons (turn : Turn) (more : turns ≠ []) :
    endsInLabel (turn :: turns) = endsInLabel turns := by
  unfold endsInLabel
  rw [getLast?_cons, getLast?_eq_some_getLast more]
  rfl

theorem strlow_length (text : Bytes) : (ngxStrlow text).length = text.length := length_map _

theorem copied_length (turns : List Turn) :
    (copiedText turns).length + (if endsInLabel turns then 1 else 0) = size turns := by
  induction turns with
  | nil => rfl
  | cons turn turns ih =>
    rw [size_cons]
    by_cases more : turns = []
    · rw [more]
      cases turn with
      | label text =>
        simp [copiedText, strlow_length, endsInLabel, size, labelSize]
        omega
      | pointer => rfl
    · rw [ends_in_label_cons turn more]
      cases turn with
      | label text =>
        rw [copiedText, if_neg more, length_append, length_append, strlow_length, length_singleton,
          labelSize]
        omega
      | pointer =>
        rw [copiedText, labelSize]
        omega

theorem labels_of_ending (ends : endsInLabel turns = true) : labelsOf turns ≠ [] := by
  induction turns with
  | nil => cases ends
  | cons turn turns ih =>
    cases turn with
    | label text => exact cons_ne_nil _ _
    | pointer =>
      by_cases more : turns = []
      · rw [more] at ends
        cases ends
      · rw [ends_in_label_cons _ more] at ends
        exact ih ends

theorem copied_joined (ends : endsInLabel turns = true) :
    copiedText turns = joined dot ((labelsOf turns).map ngxStrlow) := by
  induction turns with
  | nil => cases ends
  | cons turn turns ih =>
    by_cases more : turns = []
    · rw [more] at ends ⊢
      cases turn with
      | label text =>
        change ngxStrlow text ++ ([] ++ []) = [dot].intercalate [ngxStrlow text]
        rw [intercalate_singleton, append_nil, append_nil]
      | pointer => cases ends
    · rw [ends_in_label_cons turn more] at ends
      cases turn with
      | label text =>
        have others : (labelsOf turns).map ngxStrlow ≠ [] := by
          intro none_
          exact labels_of_ending ends (map_eq_nil_iff.mp none_)
        change _ = [dot].intercalate (ngxStrlow text :: (labelsOf turns).map ngxStrlow)
        rw [copiedText, if_neg more, ih ends, intercalate_cons_of_ne_nil others, append_assoc]
        rfl
      | pointer => exact ih ends

section Passes

variable {input : Bytes}

variable {p fuel : Nat} {n : Byte}

theorem inside_of_some (isByte : input[p]? = some n) : p < input.length :=
  (List.getElem?_eq_some_iff.mp isByte).1

theorem read_some (isByte : input[p]? = some n) : (readAt input p : Step Byte) = .ok n := by
  rw [readAt, isByte]

theorem path_inside (path : Path input p turns stop) (inside : stop < input.length) :
    p < input.length := by
  cases path with
  | here => exact inside
  | label first => exact inside_of_some first
  | pointer first => exact inside_of_some first

theorem label_text (inside : p + n.toNat ≤ input.length) :
    ((input.drop p).take n.toNat).length = n.toNat := by
  rw [length_take, length_drop]
  omega

theorem size_loop_label (first : input[p]? = some n) (more : n ≠ 0) (isLabel : isPointer n = false)
    (fuel : Nat) (len : Int) : sizeLoop input (fuel + 1) p len =
      if p + 1 + n.toNat ≥ input.length then refuse (.invalid "name is out of response")
      else sizeLoop input fuel (p + 1 + n.toNat) (len + (1 + n.toNat)) := by
  rw [sizeLoop, read_some first, bind_ok]
  rw [if_neg more, isLabel, if_neg (by decide)]

theorem size_loop_pointer {low : Byte} (first : input[p]? = some n) (jumps : isPointer n = true)
    (second : input[p + 1]? = some low) (fuel : Nat) (len : Int) : sizeLoop input (fuel + 1) p len =
      if target n low ≥ input.length then refuse (.invalid "name is out of response")
      else sizeLoop input fuel (target n low) len := by
  rw [sizeLoop, read_some first, bind_ok]
  rw [if_neg (pointer_nonzero jumps), if_pos jumps, read_some second, bind_ok]

theorem size_loop_path (path : Path input p turns stop) (inside : stop < input.length)
    (enough : turns.length ≤ fuel) (len : Int) :
    sizeLoop input fuel p len = sizeLoop input (fuel - turns.length) stop (len + size turns) := by
  induction path generalizing fuel len with
  | here p =>
    change _ = sizeLoop input fuel p (len + 0)
    rw [Int.add_zero]
  | @label p stop n turns first more isLabel rest ih =>
    have next := path_inside rest inside
    cases fuel with
    | zero => exact absurd enough (by simp)
    | succ fuel =>
      have fits : turns.length ≤ fuel := Nat.le_of_succ_le_succ enough
      rw [size_loop_label first more isLabel, if_neg (by omega), ih inside fits, length_cons,
        Nat.add_sub_add_right, size_cons, labelSize, label_text (by omega)]
      congr 1
      push_cast
      omega
  | @pointer p stop n low turns first jumps second rest ih =>
    have next := path_inside rest inside
    cases fuel with
    | zero => exact absurd enough (by simp)
    | succ fuel =>
      have fits : turns.length ≤ fuel := Nat.le_of_succ_le_succ enough
      rw [size_loop_pointer first jumps second, if_neg (by omega), ih inside fits, length_cons,
        Nat.add_sub_add_right, size_cons, labelSize, Nat.zero_add]

theorem size_loop_dangling (path : Path input p turns stop)
    (few : turns.length < fuel) (isLast : input[stop]? = some n) (jumps : isPointer n = true)
    (outside : input.length ≤ stop + 1) (len : Int) : sizeLoop input fuel p len = .error .outside := by
  have isEnd : input[stop + 1]? = none := getElem?_eq_none outside
  obtain ⟨left, isLeft⟩ : ∃ left, fuel - turns.length = left + 1 := ⟨fuel - turns.length - 1, by omega⟩
  rw [size_loop_path path (inside_of_some isLast) (Nat.le_of_lt few), isLeft, sizeLoop,
    read_some isLast, bind_ok]
  rw [if_neg (pointer_nonzero jumps), if_pos jumps, readAt, isEnd]
  rfl

/-- How the first pass ends: with an error, at a zero byte, or at a pointer in the last byte. -/
inductive Ends (input : Bytes) (fuel p : Nat) (len : Int) : Prop
  | refused (err : String) (isRefused : sizeLoop input fuel p len = refuse (.invalid err))
  | zero (turns : List Turn) (stop : Nat) (path : Path input p turns stop) (few : turns.length < fuel)
      (isZero : input[stop]? = some 0) (isSize : sizeLoop input fuel p len = .ok (len + size turns))
  | dangling (turns : List Turn) (stop : Nat) (n : Byte) (path : Path input p turns stop)
      (few : turns.length < fuel)
      (isLast : input[stop]? = some n) (jumps : isPointer n = true) (outside : input.length ≤ stop + 1)

theorem ends_cons {next : Nat} {len more : Int} {turn : Turn} (isMore : more = len + labelSize turn)
    (step : sizeLoop input (fuel + 1) p len = sizeLoop input fuel next more)
    (extend : ∀ turns stop, Path input next turns stop → Path input p (turn :: turns) stop)
    (ends : Ends input fuel next more) : Ends input (fuel + 1) p len := by
  cases ends with
  | refused err isRefused => exact .refused err (step.trans isRefused)
  | zero turns stop path few isZero isSize =>
    apply Ends.zero _ stop (extend turns stop path) (Nat.succ_lt_succ few) isZero
    rw [step, isSize, size_cons, isMore]
    congr 1
    push_cast
    omega
  | dangling turns stop n path few isLast jumps outside =>
    exact .dangling _ stop n (extend turns stop path) (Nat.succ_lt_succ few) isLast jumps outside

theorem size_loop_ends (fuel : Nat) (inside : p < input.length) (len : Int) : Ends input fuel p len := by
  induction fuel generalizing p len with
  | zero => exact .refused _ rfl
  | succ fuel ih =>
    have first : input[p]? = some input[p] := getElem?_eq_getElem inside
    generalize input[p] = n at first
    by_cases atEnd : n = 0
    · apply Ends.zero [] p (.here p) (Nat.zero_lt_succ fuel) (by rw [first, atEnd])
      rw [sizeLoop, read_some first, bind_ok]
      rw [if_pos atEnd]
      exact congrArg Except.ok (Int.add_zero len).symm
    · cases jumps : isPointer n with
      | false =>
        have step := size_loop_label first atEnd jumps fuel len
        by_cases next : p + 1 + n.toNat ≥ input.length
        · exact .refused _ (step.trans (if_pos next))
        · apply ends_cons _ (step.trans (if_neg next)) (fun turns stop path => .label first atEnd jumps path)
            (ih (by omega) _)
          rw [labelSize, label_text (by omega)]
          push_cast
          rfl
      | true =>
        by_cases dangling : input.length ≤ p + 1
        · exact .dangling [] p n (.here p) (Nat.zero_lt_succ fuel) first jumps dangling
        · have second : input[p + 1]? = some input[p + 1] := getElem?_eq_getElem (by omega)
          generalize input[p + 1] = low at second
          have step := size_loop_pointer first jumps second fuel len
          by_cases next : target n low ≥ input.length
          · exact .refused _ (step.trans (if_pos next))
          · exact ends_cons (Int.add_zero len).symm (step.trans (if_neg next))
              (fun turns stop path => .pointer first jumps second path) (ih (by omega) len)

section

variable {p stop : Nat} {turns : List Turn} (path : Path input p turns stop) (atEnd : input[stop]? = some 0)
include path atEnd

theorem path_first : ∃ n, input[p]? = some n ∧ (n = 0 ↔ turns = []) := by
  cases path with
  | here => exact ⟨0, atEnd, ⟨fun _ => rfl, fun _ => rfl⟩⟩
  | @label _ _ n _ first more => exact ⟨n, first, ⟨fun isZero => absurd isZero more, nofun⟩⟩
  | @pointer _ _ n _ _ first jumps =>
    exact ⟨n, first, ⟨fun isZero => absurd isZero (pointer_nonzero jumps), nofun⟩⟩

theorem copy_loop_path (some_ : turns ≠ []) (isFirst : input[p]? = some n)
    (enough : turns.length ≤ fuel) (dst : Bytes) :
    copyLoop input fuel n (p + 1) dst = .ok (dst ++ copiedText turns) := by
  induction path generalizing n fuel dst with
  | here p => cases some_ rfl
  | @label p stop m turns first more isLabel rest ih =>
    rw [first] at isFirst
    cases isFirst
    obtain ⟨next, isNext, last⟩ := path_first rest atEnd
    have inside := inside_of_some isNext
    cases fuel with
    | zero => exact absurd enough (by simp)
    | succ fuel =>
      have fits : turns.length ≤ fuel := Nat.le_of_succ_le_succ enough
      rw [copyLoop, isLabel, if_neg (by decide), readMany, if_pos (by omega), bind_ok]
      dsimp only
      rw [read_some isNext, bind_ok]
      by_cases none_ : turns = []
      · rw [if_pos (last.mpr none_), if_neg (not_not.mpr (last.mpr none_)), copiedText, if_pos none_, none_]
        simp only [copiedText, append_nil]
        rfl
      · rw [if_neg (mt last.mp none_), if_pos (mt last.mp none_), ih atEnd none_ isNext fits, copiedText,
          if_neg none_]
        simp only [append_assoc]
  | @pointer p stop m low turns first jumps second rest ih =>
    rw [first] at isFirst
    cases isFirst
    obtain ⟨next, isNext, last⟩ := path_first rest atEnd
    cases fuel with
    | zero => exact absurd enough (by simp)
    | succ fuel =>
      have fits : turns.length ≤ fuel := Nat.le_of_succ_le_succ enough
      rw [copyLoop, if_pos jumps, read_some second, bind_ok]
      dsimp only
      rw [read_some isNext, bind_ok]
      by_cases none_ : turns = []
      · rw [if_pos (last.mpr none_), copiedText, none_]
        exact congrArg Except.ok (append_nil dst).symm
      · rw [if_neg (mt last.mp none_), ih atEnd none_ isNext fits, copiedText]

end

end Passes

section Copying

variable {input : Bytes} {src stop : Nat} {turns : List Turn}

theorem copy_path (path : Path input src turns stop) (atEnd : input[stop]? = some 0)
    (few : turns.length < 128)
    (some_ : labelsOf turns ≠ []) :
    ngxResolverCopy true true input src = .ok (.ngxOk (some ⟨size turns - 1, copiedText turns⟩)) := by
  have pos : size turns ≠ 0 := mt (size_zero_iff path).mp some_
  have nonempty : turns ≠ [] := by
    intro none_
    rw [none_] at some_
    exact some_ rfl
  obtain ⟨n, isFirst, -⟩ := path_first path atEnd
  have ends : sizeLoop input (128 - turns.length) stop (-1 + size turns) = .ok (-1 + size turns) := by
    obtain ⟨left, isLeft⟩ : ∃ left, 128 - turns.length = left + 1 := ⟨127 - turns.length, by omega⟩
    rw [isLeft, sizeLoop, read_some atEnd, bind_ok]
    rfl
  have isLen : (-1 + (size turns : Int)).toNat = size turns - 1 := by omega
  rw [ngxResolverCopy, size_loop_path path (inside_of_some atEnd) (Nat.le_of_lt few), ends]
  change copyName true true input src (-1 + size turns) = _
  rw [copyName, if_neg (by decide), if_neg (by omega), if_neg (by decide), read_some isFirst, bind_ok,
    copy_loop_path path atEnd nonempty isFirst (Nat.le_of_lt few), bind_ok, isLen]
  rfl

theorem copy_empty (path : Path input src turns stop) (atEnd : input[stop]? = some 0)
    (none_ : labelsOf turns = []) :
    IsName input src [] := by
  refine ⟨turns, stop, path, atEnd, ?_⟩
  rw [none_]
  rfl

theorem copies_right_of_well_ended (inside : src < input.length) (wellEnded : WellEnded input src) :
    CopiesRight input src := by
  intro wanted alloc
  cases size_loop_ends 128 inside (-1) with
  | refused err isRefused =>
    refine ⟨.ngxError (some err), ?_, trivial⟩
    rw [ngxResolverCopy, isRefused]
    rfl
  | zero turns stop path few isZero isSize =>
    have run : ngxResolverCopy wanted alloc input src =
        copyName wanted alloc input src (-1 + size turns) := by
      rw [ngxResolverCopy, isSize]
    cases wanted with
    | false => exact ⟨.ngxOk none, run, trivial⟩
    | true =>
      by_cases none_ : labelsOf turns = []
      · refine ⟨.ngxOk (some ⟨0, []⟩), ?_, Nat.le_refl 0, copy_empty path isZero none_⟩
        rw [run, (size_zero_iff path).mpr none_]
        rfl
      · have pos : size turns ≠ 0 := mt (size_zero_iff path).mp none_
        cases alloc with
        | false =>
          refine ⟨.ngxError none, ?_, trivial⟩
          rw [run, copyName, if_neg (by decide), if_neg (by omega)]
          rfl
        | true =>
          have ends := (wellEnded turns stop path few).2 isZero none_
          have length := copied_length turns
          rw [if_pos ends] at length
          exact ⟨_, copy_path path isZero few none_, show (copiedText turns).length ≤
            size turns - 1 by omega,
            turns, stop, path, isZero, copied_joined ends⟩
  | dangling turns stop n path few isLast jumps outside =>
    have inside := (wellEnded turns stop path few).1 n isLast jumps
    omega

theorem well_ended_of_copies_right (right : CopiesRight input src) : WellEnded input src := by
  obtain ⟨answer, result, good⟩ := right true true
  intro turns stop path few
  constructor
  · intro n isLast jumps
    by_contra outside
    rw [ngxResolverCopy, size_loop_dangling path few isLast jumps (by omega)] at result
    cases result
  · intro isZero some_
    rw [copy_path path isZero few some_] at result
    injection result with isAnswer
    rw [← isAnswer] at good
    have fits : (copiedText turns).length ≤ size turns - 1 := good.1
    have length := copied_length turns
    have pos : size turns ≠ 0 := mt (size_zero_iff path).mp some_
    by_contra notLabel
    rw [if_neg notLabel] at length
    omega

/-- The name is expanded inside its memory and the response just if it is well ended. -/
theorem copies_right_iff (inside : src < input.length) : CopiesRight input src ↔ WellEnded input src :=
  ⟨well_ended_of_copies_right, copies_right_of_well_ended inside⟩

def responseHeader : Bytes := [0, 1, 0x81, 0x80, 0, 1, 0, 1, 0, 0, 0, 0]

theorem copies_right_iff_plain :
    (CopiesRight (responseHeader ++ [1, 'A'.toUInt8, 0xc0, 16, 2, 'b'.toUInt8, 'C'.toUInt8, 0]) 12 ↔
      WellEnded (responseHeader ++ [1, 'A'.toUInt8, 0xc0, 16, 2, 'b'.toUInt8, 'C'.toUInt8, 0]) 12) ∧
      ngxResolverCopy true true
        (responseHeader ++ [1, 'A'.toUInt8, 0xc0, 16, 2, 'b'.toUInt8, 'C'.toUInt8, 0]) 12 =
        .ok (.ngxOk (some ⟨4, "a.bc".toList.map Char.toUInt8⟩)) :=
  ⟨copies_right_iff (by decide), by decide⟩

/-- A label in front of a pointer to a zero byte, and a pointer whose first byte is the last
one of the response. -/
theorem copies_too_much : (ngxResolverCopy true true (responseHeader ++ [1, 'a'.toUInt8, 0xc0, 0]) 12 =
        .ok (.ngxOk (some ⟨1, "a.".toList.map Char.toUInt8⟩)) ∧
      ¬CopiesRight (responseHeader ++ [1, 'a'.toUInt8, 0xc0, 0]) 12) ∧
    ngxResolverCopy true true (responseHeader ++ [0xc0]) 12 = .error .outside ∧
      ¬CopiesRight (responseHeader ++ [0xc0]) 12 := by
  have long : ngxResolverCopy true true (responseHeader ++ [1, 'a'.toUInt8, 0xc0, 0]) 12 =
      .ok (.ngxOk (some ⟨1, "a.".toList.map Char.toUInt8⟩)) := by
    decide
  have outside : ngxResolverCopy true true (responseHeader ++ [0xc0]) 12 = .error .outside := by
    decide
  refine ⟨⟨long, ?_⟩, outside, ?_⟩
  · intro right
    obtain ⟨answer, result, good⟩ := right true true
    injection result with isAnswer
    rw [← isAnswer] at good
    exact absurd good.1 (by decide)
  · intro right
    obtain ⟨answer, result, -⟩ := right true true
    cases result

end Copying

end ServerCore.NginxResolverCopyBounds
