import ServerCore.NginxHttpArg
import ServerCore.PathSegments
import ServerCore.ByteTable
import Mathlib.Data.Nat.Init

/-!
# When an argument is found

The search compares bytes up to a NUL, and the length of an empty name wraps
around.
-/

namespace ServerCore.NginxHttpArgLookup

open NginxHttpParse (Byte Bytes)
open NginxHttpArg PathSegments List

variable {bytes front name : Bytes} {q : Nat} {more : Nat → Byte}

def ampersand : Byte := '&'.toUInt8

def equalSign : Byte := '='.toUInt8

def nameMemory (name : Bytes) (more : Nat → Byte) (index : Nat) : Byte :=
  name.getD index (more (index - name.length))

/-- The part starts with the name and an equal sign; the case of letters does not matter. -/
def Names (name part : Bytes) : Prop :=
  (part.take name.length).map lower = name.map lower ∧ part[name.length]? = some equalSign

instance (name part : Bytes) : Decidable (Names name part) := by
  unfold Names
  infer_instance

def valueIn (name : Bytes) (parts : List Bytes) : Option Bytes :=
  parts.findSome? (fun part => if Names name part then some (part.drop (name.length + 1)) else none)

/-- The lookup stays in the query string and answers with that value. -/
def LooksUp (args name : Bytes) (more : Nat → Byte) : Prop :=
  match valueIn name (args.splitOn ampersand) with
  | none => ngxHttpArg args (nameMemory name more) name.length = some .declined
  | some value =>
    ∃ data, ngxHttpArg args (nameMemory name more) name.length = some (.ok data value.length) ∧
      (args.drop data).take value.length = value

theorem lower_ampersand (c : Byte) (same : lower c = ampersand) : c = ampersand := by
  revert c
  exact ByteTable.forall_byte (by decide)

theorem lower_zero (c : Byte) (same : lower c = 0) : c = 0 := by
  revert c
  exact ByteTable.forall_byte (by decide)

theorem lower_difference {a b : Byte} (apart : lower a ≠ lower b) :
    ((lower a).toNat : Int) - (lower b).toNat ≠ 0 := by
  intro zero
  apply apart
  apply UInt8.toNat_inj.mp
  omega

def Holds (memory : Nat → Byte) (bytes : Bytes) : Prop :=
  ∀ index (bound : index < bytes.length), memory index = bytes[index]

variable {memory : Nat → Byte} {p : Nat}

theorem holds_tail {c : Byte} (holds : Holds memory (c :: bytes)) :
    memory 0 = c ∧ Holds (fun index => memory (index + 1)) bytes :=
  ⟨holds 0 (Nat.succ_pos _), fun index bound => holds (index + 1) (Nat.succ_lt_succ bound)⟩

theorem holds_front {back : Bytes} (holds : Holds memory (front ++ back)) : Holds memory front := by
  intro index bound
  rw [holds index (by rw [length_append]; omega), getElem_append_left bound]

theorem name_memory_holds (name : Bytes) (more : Nat → Byte) : Holds (nameMemory name more) name := by
  intro index bound
  rw [nameMemory, getD_eq_getElem?_getD, getElem?_eq_getElem bound, Option.getD_some]

theorem strncasecmp_eq (noNul : 0 ∉ bytes.dropLast)
    (holds : Holds memory bytes) {left : Bytes} (enough : bytes.length ≤ left.length) :
    ∃ difference, ngxStrncasecmp left memory bytes.length = some difference ∧
      (difference = 0 ↔ (left.take bytes.length).map lower = bytes.map lower) := by
  induction bytes generalizing memory left with
  | nil =>
    refine ⟨0, ?_, by simp⟩
    unfold ngxStrncasecmp
    exact if_pos rfl
  | cons c bytes ih =>
    cases left with
    | nil =>
      rw [length_cons, length_nil] at enough
      omega
    | cons c1 left =>
      have parts := holds_tail holds
      have count : (((c :: bytes).length : Nat) : Int) - 1 = bytes.length := by
        rw [length_cons]
        omega
      have nonzero : (((c :: bytes).length : Nat) : Int) ≠ 0 := by
        rw [length_cons]
        omega
      rw [ngxStrncasecmp, if_neg nonzero, parts.1, count]
      by_cases same : lower c1 = lower c
      · rw [if_pos same]
        by_cases isNul : lower c1 = 0
        · -- a NUL is the last byte of the name
          have isLast : bytes = [] := by
            by_contra nonempty
            apply noNul
            rw [dropLast_cons_of_ne_nil nonempty, lower_zero c (same.symm.trans isNul)]
            exact mem_cons_self
          refine ⟨0, by rw [if_neg (not_not.mpr isNul)], ?_⟩
          rw [isLast]
          simp [same]
        · have inner : 0 ∉ bytes.dropLast := by
            intro mem
            cases bytes with
            | nil => simp at mem
            | cons d bytes =>
              apply noNul
              rw [dropLast_cons_of_ne_nil (cons_ne_nil d bytes)]
              exact mem_cons_of_mem c mem
          obtain ⟨difference, compared, isZero⟩ := ih inner parts.2 (Nat.le_of_succ_le_succ enough)
          refine ⟨difference, ?_, ?_⟩
          · rw [if_pos isNul]
            exact compared
          · rw [isZero, length_cons, take_succ_cons, map_cons, map_cons, same]
            simp
      · refine ⟨_, by rw [if_neg same], ?_⟩
        have apart := lower_difference same
        simp only [apart, false_iff, length_cons, take_succ_cons, map_cons, List.cons.injEq]
        exact fun both => same both.1

theorem strncasecmp_nul (rest : Bytes) (holds : Holds memory (front ++ [0]))
    {n : Int} (enough : n < 0 ∨ (front.length : Int) < n) :
    ngxStrncasecmp (front ++ 0 :: rest) memory n = some 0 := by
  induction front generalizing memory n with
  | nil =>
    have parts := holds_tail holds
    have nonzero : n ≠ 0 := by
      omega
    rw [nil_append, ngxStrncasecmp, if_neg nonzero, parts.1, if_pos rfl]
    rfl
  | cons c front ih =>
    have parts := holds_tail holds
    rw [length_cons] at enough
    have nonzero : n ≠ 0 := by omega
    rw [cons_append, ngxStrncasecmp, if_neg nonzero, parts.1, if_pos rfl]
    split_ifs
    · exact ih parts.2 (by omega)
    · rfl

section Searching

variable {args : Bytes} {first : Byte} {tail : Bytes} {more : Nat → Byte}

def MatchAt (args name : Bytes) (p : Nat) : Prop :=
  p + name.length < args.length ∧ ((args.drop p).take name.length).map lower = name.map lower

/-- What a search from this offset on has to find: the first match, if there is one. -/
def FoundFrom (args name : Bytes) (p : Nat) (result : Option (Option Nat)) : Prop :=
  (result = some none ∧ ∀ i, p ≤ i → ¬ MatchAt args name i) ∨
    ∃ q, result = some (some q) ∧ p ≤ q ∧ MatchAt args name q ∧ ∀ i, p ≤ i → i < q → ¬ MatchAt args name i

theorem found_later {result : Option (Option Nat)} (different : ¬ MatchAt args name p)
    (behind : FoundFrom args name (p + 1) result) : FoundFrom args name p result := by
  rcases behind with absent | ⟨q, found, least, isMatch, before⟩
  · refine Or.inl ⟨absent.1, ?_⟩
    intro i start
    rcases Nat.eq_or_lt_of_le start with same | later
    · exact same ▸ different
    · exact absent.2 i later
  · refine Or.inr ⟨q, found, by omega, isMatch, ?_⟩
    intro i start below
    rcases Nat.eq_or_lt_of_le start with same | later
    · exact same ▸ different
    · exact before i later below

theorem search_found (noNul : 0 ∉ tail.dropLast) (p : Nat) : FoundFrom args (first :: tail) p
      (ngxStrlcasestrn args p ((args.length : Int) - 1) (nameMemory (first :: tail) more)
        (((first :: tail).length : Int) - 1)) := by
  have holds := holds_tail (name_memory_holds (first :: tail) more)
  have last : ((args.length : Int) - 1) - (((first :: tail).length : Int) - 1) =
      (args.length : Int) - (first :: tail).length := by omega
  have count : (((first :: tail).length : Int) - 1) = (tail.length : Nat) := by
    rw [length_cons]
    omega
  rw [ngxStrlcasestrn, last, count, holds.1]
  generalize isLeft : args.drop p = left
  induction left generalizing p with
  | nil =>
    have ended : args.length ≤ p := drop_eq_nil_iff.mp isLeft
    left
    refine ⟨?_, ?_⟩
    · rw [strlcasestrnLoop, if_pos (by omega)]
    · intro i least found
      have bound := found.1
      omega
  | cons c left ih =>
    have size : args.length - p = left.length + 1 := by
      rw [← length_drop, isLeft, length_cons]
    have isNext : args.drop (p + 1) = left := by
      rw [← drop_drop, isLeft]
      rfl
    rw [strlcasestrnLoop]
    by_cases past : (p : Int) ≥ (args.length : Int) - (first :: tail).length
    · left
      refine ⟨if_pos past, ?_⟩
      intro i least found
      have bound := found.1
      omega
    · have room : p + (first :: tail).length < args.length := by omega
      have enough : tail.length ≤ left.length := by
        omega
      have here : MatchAt args (first :: tail) p ↔
          lower c = lower first ∧ (left.take tail.length).map lower = tail.map lower := by
        rw [MatchAt, isLeft, length_cons, take_succ_cons, map_cons, map_cons, List.cons.injEq]
        exact and_iff_right room
      rw [if_neg past]
      by_cases isFirst : lower c = lower first
      · obtain ⟨difference, compared, isZero⟩ := strncasecmp_eq noNul holds.2 enough
        rw [if_neg (not_not.mpr isFirst), compared]
        dsimp only
        by_cases zero : difference = 0
        · right
          exact ⟨p, if_neg (not_not.mpr zero), Nat.le_refl p, here.mpr ⟨isFirst, isZero.mp zero⟩,
            fun i start below => absurd below (Nat.not_lt_of_le start)⟩
        · rw [if_pos zero]
          exact found_later (fun isMatch => zero (isZero.mpr (here.mp isMatch).2)) (ih (p + 1) isNext)
      · rw [if_pos isFirst]
        exact found_later (fun isMatch => isFirst (here.mp isMatch).1) (ih (p + 1) isNext)

end Searching

section Parts

def Boundary (args : Bytes) (p : Nat) : Prop := p = 0 ∨ args[p - 1]? = some ampersand

instance (args : Bytes) (p : Nat) : Decidable (Boundary args p) := by
  unfold Boundary
  infer_instance

def partsFrom (args : Bytes) (p : Nat) : List Bytes :=
  if Boundary args p then (args.drop p).splitOn ampersand else ((args.drop p).splitOn ampersand).tail

variable {args name : Bytes}

theorem names_cons (a c : Byte) (name part : Bytes) :
    Names (a :: name) (c :: part) ↔ lower c = lower a ∧ Names name part := by
  rw [Names, Names, length_cons, take_succ_cons, map_cons, map_cons, List.cons.injEq,
    getElem?_cons_succ, and_assoc]

theorem names_nil : ¬ Names name [] := by
  intro names
  cases names.2

theorem names_part (noAmpersand : ampersand ∉ name) (part : Bytes) :
    Names name (part.takeWhile (· ≠ ampersand)) ↔ Names name part := by
  induction name generalizing part with
  | nil =>
    cases part with
    | nil => rfl
    | cons c part =>
      by_cases isAmpersand : c = ampersand
      · have other : ampersand ≠ equalSign := by decide
        simp [Names, isAmpersand, other]
      · simp [Names, isAmpersand]
  | cons a name ih =>
    cases part with
    | nil => rfl
    | cons c part =>
      by_cases isAmpersand : c = ampersand
      · have other : lower c ≠ lower a := by
          rw [isAmpersand]
          intro same
          apply noAmpersand
          rw [lower_ampersand a same.symm]
          exact mem_cons_self
        rw [takeWhile_cons_of_neg (by simpa using isAmpersand), names_cons]
        exact iff_of_false names_nil (fun both => other both.1)
      · rw [takeWhile_cons_of_pos (by simpa using isAmpersand), names_cons, names_cons]
        exact and_congr_right' (ih (fun mem => noAmpersand (mem_cons_of_mem a mem)) part)

theorem parts_from_succ (bound : p < args.length) :
    partsFrom args (p + 1) = ((args.drop p).splitOn ampersand).tail := by
  have isDrop : args.drop p = args[p] :: args.drop (p + 1) := drop_eq_getElem_cons bound
  rw [isDrop, tail_split_cons, partsFrom]
  apply if_congr _ rfl rfl
  rw [Boundary, Nat.add_sub_cancel, getElem?_eq_getElem bound, Option.some.injEq]
  exact or_iff_right (Nat.succ_ne_zero p)

theorem value_in_cons (name part : Bytes) (parts : List Bytes) :
    valueIn name (part :: parts) = if Names name part then some (part.drop (name.length + 1)) else
    valueIn name parts := by
  rw [valueIn, findSome?_cons]
  split_ifs <;> rfl

theorem value_here (noAmpersand : ampersand ∉ name) (bound : p < args.length) :
    valueIn name (partsFrom args p) =
      if Boundary args p ∧ Names name (args.drop p) then
        some (((args.drop p).takeWhile (· ≠ ampersand)).drop (name.length + 1))
      else valueIn name (partsFrom args (p + 1)) := by
  by_cases isBoundary : Boundary args p
  · have isHead := @head_split Byte _ ampersand (args.drop p)
    rw [parts_from_succ bound, partsFrom, if_pos isBoundary]
    generalize (args.drop p).splitOn ampersand = parts at isHead
    cases parts with
    | nil => cases isHead
    | cons part parts =>
      rw [head?_cons, Option.some.injEq] at isHead
      rw [value_in_cons, tail_cons, isHead]
      apply if_congr _ rfl rfl
      rw [names_part noAmpersand, and_iff_right isBoundary]
  · rw [if_neg (fun both => isBoundary both.1), parts_from_succ bound, partsFrom, if_neg isBoundary]

theorem value_at_end (ended : args.length ≤ p) : valueIn name (partsFrom args p) = none := by
  rw [partsFrom, drop_eq_nil_of_le ended, splitOn_nil]
  split_ifs
  · rw [value_in_cons, if_neg names_nil]
    rfl
  · rfl

theorem names_match : Names name (args.drop p) ↔ MatchAt args name p ∧
    args[p + name.length]? = some equalSign := by
  rw [Names, MatchAt, getElem?_drop]
  constructor
  · intro names
    exact ⟨⟨(List.getElem?_eq_some_iff.mp names.2).1, names.1⟩, names.2⟩
  · intro both
    exact ⟨both.1.2, both.2⟩

theorem value_skip (noAmpersand : ampersand ∉ name) (least : p ≤ q) (inside : q ≤ args.length)
    (noMatch : ∀ i, p ≤ i → i < q → ¬ MatchAt args name i) :
    valueIn name (partsFrom args p) = valueIn name (partsFrom args q) := by
  induction least with
  | refl => rfl
  | @step q least ih =>
    rw [ih (Nat.le_of_succ_le inside) (fun i start below => noMatch i start (Nat.lt_succ_of_lt below)),
      value_here noAmpersand inside,
      if_neg (fun both => noMatch q least (Nat.lt_succ_self q) (names_match.mp both.2).1)]

end Parts

section Lookup

variable {args name : Bytes}

def Answers (args : Bytes) (answer : Option Answer) : Option Bytes → Prop
  | none => answer = some .declined
  | some value =>
    ∃ data, answer = some (.ok data value.length) ∧ (args.drop data).take value.length = value

theorem looks_up_answers (args name : Bytes) (more : Nat → Byte) : LooksUp args name more ↔
      Answers args (ngxHttpArg args (nameMemory name more) name.length)
        (valueIn name (args.splitOn ampersand)) := by
  rw [LooksUp]
  cases valueIn name (args.splitOn ampersand) <;> rfl

theorem value_end (bound : p < args.length) :
    (ngxStrlchr args p ampersand).getD args.length =
    p + ((args.drop p).takeWhile (· ≠ ampersand)).length := by
  have most := (takeWhile_sublist (p := (· != ampersand)) (l := args.drop p)).length_le
  have same : (args.drop p).takeWhile (· ≠ ampersand) = (args.drop p).takeWhile (· != ampersand) := by
    congr 1
    funext c
    rw [Bool.eq_iff_iff, decide_eq_true_eq, bne_iff_ne]
  rw [length_drop] at most
  rw [ngxStrlchr, same]
  split_ifs
  · rfl
  · rw [Option.getD_none]
    omega

theorem answer_here (noAmpersand : ampersand ∉ name) (names : Names name (args.drop p)) :
    Answers args (some (.ok (p + name.length + 1)
        (((ngxStrlchr args p ampersand).getD args.length : Int) - (p + name.length + 1 : Nat))))
      (some (((args.drop p).takeWhile (· ≠ ampersand)).drop (name.length + 1))) := by
  have bound : p < args.length := Nat.lt_of_le_of_lt (Nat.le_add_right p _) (names_match.mp names).1.1
  have long : name.length < ((args.drop p).takeWhile (· ≠ ampersand)).length :=
    (List.getElem?_eq_some_iff.mp ((names_part noAmpersand _).mpr names).2).1
  have isFront : (args.drop p).takeWhile (· ≠ ampersand) <+: args.drop p := takeWhile_prefix _
  have isTake := prefix_iff_eq_take.mp isFront
  rw [value_end bound]
  generalize (args.drop p).takeWhile (· ≠ ampersand) = head at long isTake
  refine ⟨p + name.length + 1, ?_, ?_⟩
  · rw [length_drop]
    congr 2
    omega
  · rw [length_drop, take_drop, Nat.add_assoc, Nat.add_assoc, Nat.add_sub_of_le long, ← drop_drop]
    conv_rhs => rw [isTake, take_drop]

variable {len : Nat}

theorem arg_loop_found (bound : p < args.length)
    (found : ngxStrlcasestrn args p ((args.length : Int) - 1) memory ((len : Int) - 1) = some (some q))
    (inside : q + len < args.length) : argLoop args memory len p =
      if Boundary args q ∧ args[q + len]? = some equalSign then
        some (.ok (q + len + 1)
          (((ngxStrlchr args q ampersand).getD args.length : Int) - (q + len + 1 : Nat)))
      else argLoop args memory len (q + 1) := by
  have isBefore : (if q = 0 then some true else args[q - 1]?.map (· == '&'.toUInt8)) =
      some (decide (Boundary args q)) := by
    by_cases atStart : q = 0
    · simp [Boundary, atStart]
    · have earlier : q - 1 < args.length := by omega
      have isByte : Boundary args q ↔ args[q - 1] = ampersand := by
        rw [Boundary, getElem?_eq_getElem earlier, Option.some.injEq]
        exact or_iff_right atStart
      rw [if_neg atStart, getElem?_eq_getElem earlier, Option.map_some, Option.some.injEq, Bool.eq_iff_iff,
        beq_iff_eq, decide_eq_true_eq, isByte]
      rfl
  rw [argLoop, if_pos bound]
  split
  · next absent =>
      rw [found] at absent
      cases absent
  · next absent =>
      rw [found] at absent
      cases absent
  · next other isFound =>
      rw [found, Option.some.injEq, Option.some.injEq] at isFound
      rw [← isFound, isBefore, getElem?_eq_getElem inside]
      by_cases isBoundary : Boundary args q
      · rw [decide_eq_true isBoundary]
        apply if_congr _ rfl rfl
        rw [and_iff_right isBoundary, Option.some.injEq]
        rfl
      · rw [decide_eq_false isBoundary, if_neg (fun both => isBoundary both.1)]

theorem arg_loop_absent (bound : p < args.length)
    (absent : ngxStrlcasestrn args p ((args.length : Int) - 1) memory ((len : Int) - 1) = some none) :
    argLoop args memory len p = some .declined := by
  rw [argLoop, if_pos bound]
  split
  · next outside =>
      rw [absent] at outside
      cases outside
  · rfl
  · next isFound =>
      rw [absent] at isFound
      cases isFound

theorem arg_loop_outside (bound : p < args.length)
    (outside : ngxStrlcasestrn args p ((args.length : Int) - 1) memory ((len : Int) - 1) = none) :
    argLoop args memory len p = none := by
  rw [argLoop, if_pos bound]
  split
  · rfl
  · next absent =>
      rw [outside] at absent
      cases absent
  · next isFound =>
      rw [outside] at isFound
      cases isFound

theorem arg_loop_answers (nonempty : name ≠ []) (noAmpersand : ampersand ∉ name)
    (noNul : 0 ∉ name.tail.dropLast) (p : Nat) :
    Answers args (argLoop args (nameMemory name more) name.length p) (valueIn name (partsFrom args p)) := by
  induction size : args.length - p using Nat.strong_induction_on generalizing p with
  | _ rest ih =>
    by_cases bound : p < args.length
    · have search : FoundFrom args name p
          (ngxStrlcasestrn args p ((args.length : Int) - 1) (nameMemory name more)
            ((name.length : Int) - 1)) := by
        obtain ⟨first, tail, isName⟩ := exists_cons_of_ne_nil nonempty
        rw [isName] at noNul ⊢
        exact search_found noNul p
      rcases search with ⟨absent, noMatch⟩ | ⟨q, found, least, isMatch, before⟩
      · rw [arg_loop_absent bound absent,
          value_skip noAmpersand (Nat.le_of_lt bound) (Nat.le_refl _) (fun i start below => noMatch i start),
          value_at_end (Nat.le_refl _)]
        rfl
      · have inside : q < args.length := Nat.lt_of_le_of_lt (Nat.le_add_right q _) isMatch.1
        have names : Names name (args.drop q) ↔ args[q + name.length]? = some equalSign :=
          names_match.trans (and_iff_right isMatch)
        rw [arg_loop_found bound found isMatch.1, value_skip noAmpersand least (Nat.le_of_lt inside) before,
          value_here noAmpersand inside, if_congr (and_congr_right' names) rfl rfl]
        by_cases isHere : Boundary args q ∧ args[q + name.length]? = some equalSign
        · rw [if_pos isHere, if_pos isHere]
          exact answer_here noAmpersand (names.mpr isHere.2)
        · rw [if_neg isHere, if_neg isHere]
          exact ih (args.length - (q + 1)) (by omega) (q + 1) rfl
    · rw [argLoop, if_neg bound, value_at_end (Nat.le_of_not_lt bound)]
      rfl

theorem looks_up_of_plain (nonempty : name ≠ []) (noAmpersand : ampersand ∉ name)
    (noNul : 0 ∉ name.tail.dropLast) : LooksUp args name more := by
  rw [looks_up_answers, ngxHttpArg]
  by_cases isEmpty : args.length = 0
  · rw [if_pos isEmpty, length_eq_zero_iff.mp isEmpty, splitOn_nil, value_in_cons,
      if_neg names_nil]
    rfl
  · rw [if_neg isEmpty]
    have atStart : partsFrom args 0 = args.splitOn ampersand := if_pos (Or.inl rfl)
    rw [← atStart]
    exact arg_loop_answers nonempty noAmpersand noNul 0

end Lookup

section Names

theorem empty_name_outside (more : Nat → Byte) : ngxHttpArg [more 0] (nameMemory [] more) 0 = none := by
  rw [ngxHttpArg, if_neg (by simp)]
  apply arg_loop_outside (Nat.succ_pos 0)
  rw [ngxStrlcasestrn, drop_zero, strlcasestrnLoop, if_neg (by simp)]
  exact if_neg (not_not.mpr rfl)

variable {first : Byte} {front back : Bytes}

/-- A query string in which the search takes the text up to a NUL for the name. -/
def shortened (first : Byte) (front back : Bytes) : Bytes :=
  (first :: front ++ [0]) ++ (List.replicate back.length ampersand ++ [equalSign])

theorem shortened_length :
    (shortened first front back).length = (first :: front ++ 0 :: back).length + 1 := by
  rw [shortened]
  simp only [length_append, length_cons, length_replicate, length_nil]
  omega

theorem shortened_found (nonempty : back ≠ []) :
    ngxStrlcasestrn (shortened first front back) 0 (((shortened first front back).length : Int) - 1)
      (nameMemory (first :: front ++ 0 :: back) more) (((first :: front ++ 0 :: back).length : Int) - 1) =
      some (some 0) := by
  have holds := holds_tail (name_memory_holds (first :: (front ++ 0 :: back)) more)
  have inner : Holds (fun index => nameMemory (first :: (front ++ 0 :: back)) more (index + 1))
      (front ++ [0]) := by
    apply holds_front
    rw [append_assoc]
    exact holds.2
  have isText : shortened first front back =
      first :: (front ++ 0 :: (List.replicate back.length ampersand ++ [equalSign])) := by
    simp [shortened]
  have size := length_pos_iff.mpr nonempty
  rw [ngxStrlcasestrn, drop_zero, shortened_length, isText, cons_append, holds.1, strlcasestrnLoop,
    if_neg (by omega), if_neg (not_not.mpr rfl), strncasecmp_nul _ inner
      (Or.inr (by simp only [length_append, length_cons]; omega))]
  rfl

theorem nul_name_negative (noAmpersand : ampersand ∉ first :: front) (nonempty : back ≠ []) :
    ngxHttpArg (shortened first front back) (nameMemory (first :: front ++ 0 :: back) more)
      (first :: front ++ 0 :: back).length =
      some (.ok ((first :: front ++ 0 :: back).length + 1) (-(back.length + 1 : Nat))) := by
  have size := length_pos_iff.mpr nonempty
  have isLast : (shortened first front back)[0 + (first :: front ++ 0 :: back).length]? =
      some equalSign := by
    have isText : shortened first front back =
        (first :: front ++ [0] ++ List.replicate back.length ampersand) ++ [equalSign] := by
      simp [shortened]
    rw [isText, getElem?_append_right (by simp), getElem?_eq_some_iff]
    simp
  have isValue : ((shortened first front back).drop 0).takeWhile (· ≠ ampersand) =
      first :: front ++ [0] := by
    have isText : shortened first front back =
        (first :: front ++ [0]) ++ ampersand ::
          (List.replicate (back.length - 1) ampersand ++ [equalSign]) := by
      rw [shortened, ← cons_append, ← replicate_succ, Nat.sub_add_cancel size]
    have plain : ∀ c ∈ first :: front ++ [0], (decide (c ≠ ampersand)) = true := by
      intro c mem
      apply decide_eq_true
      intro same
      rcases mem_append.mp mem with inFront | isNul
      · exact noAmpersand (same ▸ inFront)
      · rw [mem_singleton.mp isNul] at same
        exact absurd same (by decide)
    rw [drop_zero, isText, takeWhile_append_of_pos plain, takeWhile_cons_of_neg (by simp),
      append_nil]
  have bound : 0 < (shortened first front back).length := by
    rw [shortened_length]
    exact Nat.succ_pos _
  rw [ngxHttpArg, if_neg (Nat.ne_of_gt bound), arg_loop_found bound (shortened_found nonempty)
    (by rw [shortened_length]; omega), if_pos ⟨Or.inl rfl, isLast⟩, value_end bound, isValue]
  simp only [length_append, length_cons, length_nil]
  congr 2
  · omega
  · omega

theorem looks_up_shape {args : Bytes} (right : LooksUp args name more) :
    ngxHttpArg args (nameMemory name more) name.length = some .declined ∨
      ∃ data, ∃ len : Nat, ngxHttpArg args (nameMemory name more) name.length = some (.ok data len) := by
  rw [looks_up_answers] at right
  cases isValue : valueIn name (args.splitOn ampersand) with
  | none =>
    rw [isValue] at right
    exact Or.inl right
  | some value =>
    rw [isValue] at right
    obtain ⟨data, isAnswer, _⟩ := right
    exact Or.inr ⟨data, value.length, isAnswer⟩

/-- The lookup of a name without `&` is right for every query string if and only if the
name is not empty and has no NUL between its first and its last byte. -/
theorem looks_up_iff (name : Bytes) (more : Nat → Byte) (noAmpersand : ampersand ∉ name) :
    (∀ args, LooksUp args name more) ↔ name ≠ [] ∧ 0 ∉ name.tail.dropLast := by
  constructor
  · intro right
    constructor
    · intro isEmpty
      have shape := looks_up_shape (right [more 0])
      rw [isEmpty, length_nil, empty_name_outside] at shape
      simp at shape
    · intro mem
      cases name with
      | nil => cases mem
      | cons first tail =>
        obtain ⟨front, back, isInner⟩ := append_of_mem mem
        have nonempty : tail ≠ [] := by
          intro isEmpty
          rw [tail_cons, isEmpty] at mem
          cases mem
        have isName : first :: tail = first :: front ++ 0 :: (back ++ [tail.getLast nonempty]) := by
          rw [tail_cons] at isInner
          rw [cons_append, List.cons.injEq, and_iff_right rfl, ← cons_append, ← append_assoc, ← isInner,
            dropLast_append_getLast nonempty]
        have front_plain : ampersand ∉ first :: front := by
          intro inFront
          apply noAmpersand
          rw [isName]
          exact mem_append_left _ inFront
        rw [isName] at right
        have shape := looks_up_shape (right (shortened first front (back ++ [tail.getLast nonempty])))
        rw [nul_name_negative front_plain (by simp)] at shape
        rcases shape with declined | ⟨data, len, isAnswer⟩
        · cases declined
        · injection isAnswer with isAnswer
          injection isAnswer with _ isLength
          omega
  · intro plain args
    exact looks_up_of_plain plain.1 noAmpersand plain.2

theorem looks_up_start : LooksUp ("start=5".toList.map Char.toUInt8)
    ("start".toList.map Char.toUInt8) (fun _ => 0) :=
  (looks_up_iff _ _ (by decide)).mpr (by decide) _

/-- `$arg_` with the query string `=`. -/
theorem empty_name_unread : ¬ LooksUp [equalSign] [] (fun _ => equalSign) := by
  intro right
  have shape := looks_up_shape right
  rw [length_nil, empty_name_outside (fun _ => equalSign)] at shape
  simp at shape

end Names

end ServerCore.NginxHttpArgLookup
