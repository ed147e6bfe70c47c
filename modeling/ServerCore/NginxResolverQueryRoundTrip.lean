import ServerCore.NginxResolverCopyBounds
import ServerCore.NginxResolverQuery

/-!
# Reading a question back

The reader takes a length of 64 or more for a pointer, and what it gives has a
dot among any 64 bytes, so that it cannot be a name with such a label.
-/

namespace ServerCore.NginxResolverQueryRoundTrip

open CompressedNames
open NginxHash (ngxStrlow ngxTolower)
open NginxResolverCopy NginxResolverCopyBounds List
open NginxResolverQuery (ngxResolveA ngxResolveAaaa ngxResolveSrv hdrSize qsSize Node identBytes header qs
  nameSize nameLoop writeName createQuery copyQuery ngxResolverCreateNameQuery ngxResolverCreateSrvQuery)

def nameLabels (name : Bytes) : List Bytes := name.splitOn dot

/-- A question: labels of 1 to 63 bytes, the zero byte, 255 bytes in all at most, with the
type and the class IN. -/
def ValidQuestion (type : Byte) (question : Bytes) : Prop :=
  ∃ labels, labels ≠ [] ∧ (∀ label ∈ labels, 1 ≤ label.length ∧ label.length ≤ 63) ∧
    (wireLabels labels).length + 1 ≤ 255 ∧ question = wireLabels labels ++ 0 :: qs type

def ReadBack (name query : Bytes) : Prop :=
  ∃ size, ngxResolverCopy true true query hdrSize = .ok (.ngxOk (some ⟨size, ngxStrlow name⟩))

structure RightQuery (qlen : Nat) (type : Byte) (name query : Bytes) : Prop where
  length : query.length = qlen
  question : ValidQuestion type (query.drop hdrSize)
  back : ReadBack name query

structure RightNode (type : Byte) (name : Bytes) (rn : Node) : Prop where
  query : RightQuery rn.qlen type name rn.query
  query6 : ∀ query6, rn.query6 = some query6 → RightQuery rn.qlen ngxResolveAaaa name query6

section Writing

variable {name behind : Bytes}

theorem name_loop_labels {s tail rest p : Bytes} {len : Nat} (noDot : dot ∉ tail)
    (written : nameLoop s tail.length (tail ++ rest) = some (len, p)) :
    ∃ first others, (s.reverse ++ tail).splitOn dot = first :: others ∧ len = first.length ∧
      p = first ++ (wireLabels others ++ rest) ∧ ∀ label ∈ others, 1 ≤ label.length ∧
      label.length ≤ 255 := by
  induction s generalizing tail rest with
  | nil =>
    injection written with written
    injection written with isLen isRest
    exact ⟨tail, [], splitOn_eq_singleton noDot, isLen.symm, isRest.symm, nofun⟩
  | cons c s ih =>
    rw [nameLoop] at written
    by_cases isDot : c = dot
    · rw [if_neg (not_not.mpr isDot)] at written
      by_cases wrong : tail.length = 0 ∨ tail.length > 255
      · rw [if_pos wrong] at written
        cases written
      · rw [if_neg wrong] at written
        obtain ⟨first, others, isSplit, isLen, isWritten, valid⟩ :=
          @ih [] (UInt8.ofNat tail.length :: (tail ++ rest)) not_mem_nil written
        rw [append_nil] at isSplit
        refine ⟨first, others ++ [tail], ?_, isLen, ?_, ?_⟩
        · rw [reverse_cons, append_assoc, singleton_append, isDot, splitOn_append_cons_self,
            isSplit, splitOn_eq_singleton noDot]
          rfl
        · rw [isWritten, wire_labels_append, wire_labels_cons, append_assoc]
          simp [wireLabels]
        · intro label mem
          rcases mem_append.mp mem with old | isTail
          · exact valid label old
          · rw [mem_singleton.mp isTail]
            omega
    · rw [if_pos isDot] at written
      obtain ⟨first, others, isSplit, rest⟩ :=
        @ih (c :: tail) rest (by simp [Ne.symm isDot, noDot]) written
      refine ⟨first, others, ?_, rest⟩
      rw [reverse_cons, append_assoc, singleton_append]
      exact isSplit

theorem write_name_labels {question : Bytes} (written : writeName name behind = some question) :
    question = wireLabels (nameLabels name) ++ 0 :: behind ∧ name ≠ [] ∧
      ∀ label ∈ nameLabels name, 1 ≤ label.length ∧ label.length ≤ 255 := by
  unfold writeName at written
  by_cases empty : name.length = 0
  · rw [if_pos empty] at written
    cases written
  · rw [if_neg empty] at written
    cases loop : nameLoop name.reverse 0 (0 :: behind) with
    | none =>
      rw [loop] at written
      cases written
    | some answer =>
      obtain ⟨len, p⟩ := answer
      obtain ⟨first, others, isSplit, isLen, isWritten, valid⟩ := @name_loop_labels name.reverse [] _ _ _
        not_mem_nil loop
      rw [reverse_reverse, append_nil] at isSplit
      rw [loop] at written
      dsimp only at written
      by_cases wrong : len = 0 ∨ len > 255
      · rw [if_pos wrong] at written
        cases written
      · rw [if_neg wrong] at written
        injection written with isQuestion
        unfold nameLabels
        rw [isSplit]
        refine ⟨?_, ?_, ?_⟩
        · rw [← isQuestion, isWritten, isLen, wire_labels_cons, cons_append, append_assoc]
        · intro none_
          rw [none_] at empty
          exact empty rfl
        · intro label mem
          rcases mem_cons.mp mem with isFirst | other
          · rw [isFirst]
            omega
          · exact valid label other

theorem wire_name_length (name : Bytes) : (wireLabels (nameLabels name)).length = name.length + 1 := by
  have length := joined_length dot (splitOn_ne_nil dot name)
  rw [joined, intercalate_splitOn] at length
  exact length.symm

end Writing

theorem lower_dot_iff (c : Byte) : ngxTolower c = dot ↔ c = dot := by
  have each : ∀ c : Byte, ngxTolower c = dot ↔ c = dot := ByteTable.forall_byte (by decide)
  exact each c

theorem lower_labels (name : Bytes) : nameLabels (ngxStrlow name) = (nameLabels name).map ngxStrlow := by
  induction name with
  | nil => rfl
  | cons c name ih =>
    unfold nameLabels at ih ⊢
    change (ngxTolower c :: ngxStrlow name).splitOn dot = _
    rw [splitOn_cons_eq_if_modifyHead, splitOn_cons_eq_if_modifyHead, ih]
    by_cases isDot : c = dot
    · rw [if_pos (beq_iff_eq.mpr ((lower_dot_iff c).mpr isDot)), if_pos (beq_iff_eq.mpr isDot)]
      rfl
    · rw [if_neg fun same => isDot ((lower_dot_iff c).mp (beq_iff_eq.mp same)),
        if_neg fun same => isDot (beq_iff_eq.mp same)]
      cases name.splitOn dot with
      | nil => rfl
      | cons label labels => rfl

theorem lower_joined (name : Bytes) : joined dot ((nameLabels name).map ngxStrlow) = ngxStrlow name := by
  rw [← lower_labels, nameLabels, joined, intercalate_splitOn]

theorem label_length_le {text label : Bytes} (mem : label ∈ nameLabels text) :
    label.length ≤ text.length := by
  induction text generalizing label with
  | nil =>
    rw [mem_singleton.mp mem]
    exact Nat.le_refl 0
  | cons c text ih =>
    unfold nameLabels at mem
    rw [splitOn_cons_eq_if_modifyHead] at mem
    split_ifs at mem
    · rcases mem_cons.mp mem with isEmpty | other
      · rw [isEmpty]
        exact Nat.zero_le _
      · exact Nat.le_succ_of_le (ih other)
    · cases isSplit : text.splitOn dot with
      | nil => exact absurd isSplit (splitOn_ne_nil dot text)
      | cons first others =>
        have old : ∀ other ∈ first :: others, other.length ≤ text.length := by
          intro other isPart
          apply ih
          rw [nameLabels, isSplit]
          exact isPart
        rw [isSplit] at mem
        rcases mem_cons.mp mem with isFirst | other
        · rw [isFirst]
          exact Nat.succ_le_succ (old first mem_cons_self)
        · exact Nat.le_succ_of_le (old label (mem_cons_of_mem first other))

theorem copied_parts {input : Bytes} {p stop : Nat} {turns : List Turn} (path : Path input p turns stop) :
    ∀ label ∈ nameLabels (copiedText turns), label.length ≤ 63 := by
  induction path with
  | here p =>
    intro label mem
    rw [mem_singleton.mp mem]
    exact Nat.zero_le _
  | @label p stop n turns first more isLabel rest ih =>
    have short : ∀ part ∈ nameLabels (ngxStrlow ((input.drop (p + 1)).take n.toNat)), part.length ≤ 63 := by
      intro part mem
      have fits := label_length_le mem
      have small := label_byte n isLabel
      rw [strlow_length, length_take] at fits
      omega
    intro label mem
    rw [copiedText] at mem
    by_cases none_ : turns = []
    · rw [if_pos none_, none_, copiedText, append_nil, append_nil] at mem
      exact short label mem
    · rw [if_neg none_, singleton_append, nameLabels, splitOn_append_cons_self] at mem
      rcases mem_append.mp mem with front | back
      · exact short label front
      · exact ih label back
  | pointer first jumps second rest ih => exact ih

section Reading

variable {name front query rest : Bytes}

theorem read_back_of_short (isQuery : query = front ++ (wireLabels (nameLabels name) ++ 0 :: rest))
    (isFront : front.length = hdrSize)
    (valid : ∀ label ∈ nameLabels name, 1 ≤ label.length ∧ label.length ≤ 63)
    (few : (nameLabels name).length ≤ 127) : ReadBack name query := by
  have some_ : nameLabels name ≠ [] := splitOn_ne_nil dot name
  have path := wire_path valid front (0 :: rest)
  rw [← isQuery, isFront] at path
  have atEnd : query[(front ++ wireLabels (nameLabels name)).length]? = some 0 := by
    rw [isQuery, ← append_assoc, getElem?_append_right (Nat.le_refl _), Nat.sub_self]
    rfl
  have labels : ∀ labels : List Bytes, labelsOf (labels.map Turn.label) = labels := by
    intro labels
    induction labels with
    | nil => rfl
    | cons label labels ih =>
      change label :: labelsOf (labels.map Turn.label) = _
      rw [ih]
  have ends : endsInLabel ((nameLabels name).map Turn.label) = true := by
    rw [endsInLabel, getLast?_map, getLast?_eq_some_getLast some_]
    rfl
  have run := copy_path path atEnd (by rw [length_map]; omega) (by rw [labels]; exact some_)
  rw [copied_joined ends, labels, lower_joined] at run
  exact ⟨_, run⟩

section

variable (some_ : name ≠ []) (isQuery : query = front ++ (wireLabels (nameLabels name) ++ 0 :: rest))
  (isFront : front.length = hdrSize) (valid : ∀ label ∈ nameLabels name, 1 ≤ label.length)
include some_ isQuery isFront valid

theorem short_of_read_back (back : ReadBack name query) :
    (∀ label ∈ nameLabels name, label.length ≤ 63) ∧ (nameLabels name).length ≤ 127 := by
  obtain ⟨size, result⟩ := back
  have inside : hdrSize < query.length := by
    rw [isQuery, length_append, length_append, length_cons]
    omega
  have short : ∀ label ∈ nameLabels name, label.length ≤ 63 := by
    cases size_loop_ends 128 inside (-1) with
    | refused err isRefused =>
      rw [ngxResolverCopy, isRefused] at result
      cases result
    | dangling turns stop n path few isLast jumps outside =>
      rw [ngxResolverCopy, size_loop_dangling path few isLast jumps outside] at result
      cases result
    | zero turns stop path few isZero isSize =>
      have isText : copiedText turns = ngxStrlow name := by
        by_cases none_ : labelsOf turns = []
        · rw [ngxResolverCopy, isSize, (size_zero_iff path).mpr none_] at result
          injection result with isAnswer
          injection isAnswer with isName
          injection isName with isName
          injection isName with _ isText
          exact absurd (map_eq_nil_iff.mp isText.symm) some_
        · rw [copy_path path isZero few none_] at result
          injection result with isAnswer
          injection isAnswer with isName
          injection isName with isName
          injection isName with _ isText
      have parts := copied_parts path
      rw [isText, lower_labels] at parts
      intro label mem
      have part := parts (ngxStrlow label) (mem_map_of_mem mem)
      rw [strlow_length] at part
      exact part
  refine ⟨short, ?_⟩
  by_contra many
  have cut : query = front ++ (wireLabels ((nameLabels name).take 128) ++
      (wireLabels ((nameLabels name).drop 128) ++ 0 :: rest)) := by
    rw [← append_assoc (wireLabels _), ← wire_labels_append, take_append_drop]
    exact isQuery
  have firstValid : ∀ label ∈ (nameLabels name).take 128, 1 ≤ label.length ∧ label.length ≤ 63 := by
    intro label mem
    exact ⟨valid label (mem_of_mem_take mem), short label (mem_of_mem_take mem)⟩
  have path := wire_path firstValid front (wireLabels ((nameLabels name).drop 128) ++ 0 :: rest)
  rw [← cut, isFront] at path
  have stops : (front ++ wireLabels ((nameLabels name).take 128)).length < query.length := by
    rw [cut]
    simp only [length_append, length_cons]
    omega
  have turns : (((nameLabels name).take 128).map Turn.label).length = 128 := by
    rw [length_map, length_take]
    omega
  rw [ngxResolverCopy, size_loop_path path stops (Nat.le_of_eq turns), turns,
    Nat.sub_self, sizeLoop] at result
  cases result

theorem read_back_iff :
    ReadBack name query ↔ (∀ label ∈ nameLabels name, label.length ≤ 63) ∧
    (nameLabels name).length ≤ 127 := by
  constructor
  · exact short_of_read_back some_ isQuery isFront valid
  · intro ⟨short, few⟩
    exact read_back_of_short isQuery isFront (fun label mem => ⟨valid label mem, short label mem⟩) few

end

end Reading

section Queries

variable {name : Bytes} {type : Byte}

/-- A query of this type: a header of its size, the labels of the name and the question type. -/
def IsQuery (type : Byte) (name query : Bytes) : Prop :=
  ∃ front, front.length = hdrSize ∧ query = front ++ (wireLabels (nameLabels name) ++ 0 :: qs type)

/-- A name whose labels are neither empty nor longer than a byte can tell. -/
def Accepted (name : Bytes) : Prop := name ≠ [] ∧ ∀ label ∈ nameLabels name,
    1 ≤ label.length ∧ label.length ≤ 255

variable {query : Bytes}

theorem create_query_is {ident len : Nat} (created : createQuery type ident name = some (len, query)) :
    IsQuery type name query ∧ Accepted name ∧ len = name.length + 18 := by
  unfold createQuery at created
  cases written : writeName name (qs type) with
  | none =>
    rw [written] at created
    cases created
  | some question =>
    obtain ⟨isQuestion, some_, valid⟩ := write_name_labels written
    rw [written] at created
    injection created with created
    injection created with isLen isQuery
    have nonempty : name.length ≠ 0 := mt length_eq_zero_iff.mp some_
    refine ⟨⟨header ident, rfl, ?_⟩, ⟨some_, valid⟩, ?_⟩
    · rw [← isQuery, isQuestion]
    · rw [← isLen, nameSize, if_pos nonempty, hdrSize, qsSize]
      omega

theorem query_length (isQuery : IsQuery type name query) : query.length = name.length + 18 := by
  obtain ⟨front, isFront, split⟩ := isQuery
  have length := wire_name_length name
  have behind : (qs type).length = 4 := rfl
  rw [split, length_append, length_append, length_cons, isFront, hdrSize]
  omega

theorem label_count_le (valid : ∀ label ∈ nameLabels name, 1 ≤ label.length) :
    2 * (nameLabels name).length ≤ name.length + 1 := by
  have count : ∀ labels : List Bytes, (∀ label ∈ labels, 1 ≤ label.length) →
      2 * labels.length ≤ (wireLabels labels).length := by
    intro labels valid
    induction labels with
    | nil => exact Nat.le_refl 0
    | cons label labels ih =>
      have first := valid label mem_cons_self
      have others := ih fun other mem => valid other (mem_cons_of_mem label mem)
      rw [wire_labels_cons, length_cons, length_cons, length_append]
      omega
  have all := count (nameLabels name) valid
  rw [wire_name_length] at all
  exact all

theorem valid_question_iff (isQuery : IsQuery type name query) (accepted : Accepted name) :
    ValidQuestion type (query.drop hdrSize) ↔ (∀ label ∈ nameLabels name, label.length ≤ 63) ∧
    name.length ≤ 253 := by
  obtain ⟨front, isFront, split⟩ := isQuery
  have length := wire_name_length name
  rw [split, ← isFront, drop_left]
  constructor
  · intro isValid
    obtain ⟨labels, -, valid, short, same⟩ := isValid
    have sameLabels : nameLabels name = labels :=
      wire_labels_unique accepted.2
        (fun label mem => ⟨(valid label mem).1, Nat.le_trans (valid label mem).2 (by decide)⟩) same
    rw [← sameLabels] at valid short
    exact ⟨fun label mem => (valid label mem).2, by omega⟩
  · intro ⟨short, small⟩
    exact ⟨nameLabels name, splitOn_ne_nil dot name,
      fun label mem => ⟨(accepted.2 label mem).1, short label mem⟩, by omega, rfl⟩

theorem right_query_iff (isQuery : IsQuery type name query) (accepted : Accepted name) :
    RightQuery ((name.length + 18) % 2 ^ 16) type name query ↔
      (∀ label ∈ nameLabels name, label.length ≤ 63) ∧ name.length ≤ 253 := by
  have valid := fun label mem => (accepted.2 label mem).1
  constructor
  · intro right
    exact (valid_question_iff isQuery accepted).mp right.question
  · intro ⟨short, small⟩
    have few := label_count_le valid
    have length := query_length isQuery
    have question := (valid_question_iff isQuery accepted).mpr ⟨short, small⟩
    obtain ⟨front, isFront, split⟩ := isQuery
    constructor
    · omega
    · exact question
    · exact (read_back_iff accepted.1 split isFront valid).mpr ⟨short, by omega⟩

theorem copy_query_is (isQuery : IsQuery ngxResolveA name query) (some_ : name ≠ [])
    (memory : Nat → Byte) {len : Nat} (isLen : len = name.length + 18) {qlen : Nat} (whole : qlen = len)
    (ident6 : Nat) :
    IsQuery ngxResolveAaaa name (copyQuery memory query len qlen ident6 (nameSize name)) := by
  have size := query_length isQuery
  obtain ⟨front, isFront, split⟩ := isQuery
  have nonempty : name.length ≠ 0 := mt length_eq_zero_iff.mp some_
  have length := wire_name_length name
  have first : (identBytes ident6 ++ front.drop 2).length = hdrSize := by
    rw [length_append, length_drop, isFront]
    rfl
  have place : hdrSize + (1 + name.length + 1) + 1 =
      (identBytes ident6 ++ front.drop 2 ++ wireLabels (nameLabels name)).length + 2 := by
    rw [length_append, first, length]
    omega
  refine ⟨identBytes ident6 ++ front.drop 2, first, ?_⟩
  · rw [copyQuery, whole, Nat.sub_self, range'_zero, map_nil, append_nil,
      take_of_length_le (by omega), split, drop_append_of_le_length (by rw [isFront, hdrSize]; omega),
      nameSize, if_pos nonempty, place, ← append_assoc, ← append_assoc,
      set_append_right _ _ (Nat.le_add_right _ 2), Nat.add_sub_cancel_left, append_assoc]
    rfl

theorem right_node_iff {ident len : Nat} (created : createQuery type ident name = some (len, query))
    {rn : Node} (isQlen : rn.qlen = len % 2 ^ 16) (isQuery : rn.query = query)
    (second : ∀ query6, rn.query6 = some query6 → rn.qlen = len → IsQuery ngxResolveAaaa name query6) :
    (RightNode type name rn ↔ (∀ label ∈ nameLabels name, label.length ≤ 63) ∧ name.length ≤ 253) ∧
      (ReadBack name rn.query ↔
        (∀ label ∈ nameLabels name, label.length ≤ 63) ∧ (nameLabels name).length ≤ 127) := by
  obtain ⟨first, accepted, isLen⟩ := create_query_is created
  rw [isLen] at isQlen
  constructor
  · constructor
    · intro right
      have one := right.query
      rw [isQlen, isQuery] at one
      exact (right_query_iff first accepted).mp one
    · intro ⟨short, small⟩
      constructor
      · rw [isQlen, isQuery]
        exact (right_query_iff first accepted).mpr ⟨short, small⟩
      · intro query6 isSecond
        have other := second query6 isSecond (by omega)
        rw [isQlen]
        exact (right_query_iff other accepted).mpr ⟨short, small⟩
  · obtain ⟨front, isFront, split⟩ := first
    rw [isQuery]
    exact read_back_iff accepted.1 split isFront fun label mem => (accepted.2 label mem).1

/-- Every query that is created is right just if no label has more than 63 bytes and the name
not more than 253; the reader alone needs short labels and at most 127 of them. -/
theorem question_right_iff (name : Bytes) : (∀ ipv6 alloc memory ident ident6 rn,
      ngxResolverCreateNameQuery ipv6 alloc memory ident ident6 name = .ngxOk rn →
        (RightNode ngxResolveA name rn ↔ (∀ label ∈ nameLabels name, label.length ≤ 63) ∧
          name.length ≤ 253) ∧
          (ReadBack name rn.query ↔
            (∀ label ∈ nameLabels name, label.length ≤ 63) ∧ (nameLabels name).length ≤ 127)) ∧
      ∀ alloc ident rn, ngxResolverCreateSrvQuery alloc ident name = .ngxOk rn →
        (RightNode ngxResolveSrv name rn ↔
            (∀ label ∈ nameLabels name, label.length ≤ 63) ∧ name.length ≤ 253) ∧ (ReadBack name rn.query ↔
            (∀ label ∈ nameLabels name, label.length ≤ 63) ∧ (nameLabels name).length ≤ 127) := by
  constructor
  · intro ipv6 alloc memory ident ident6 rn created
    unfold ngxResolverCreateNameQuery at created
    cases alloc with
    | false => cases created
    | true =>
      cases made : createQuery ngxResolveA ident name with
      | none =>
        rw [made] at created
        cases created
      | some answer =>
        obtain ⟨first, accepted, isLen⟩ := create_query_is made
        rw [made] at created
        cases ipv6 with
        | false =>
          cases created
          exact right_node_iff made rfl rfl nofun
        | true =>
          cases created
          apply right_node_iff made rfl rfl
          intro query6 isSecond whole
          cases isSecond
          exact copy_query_is first accepted.1 memory isLen whole ident6
  · intro alloc ident rn created
    unfold ngxResolverCreateSrvQuery at created
    cases alloc with
    | false => cases created
    | true =>
      cases made : createQuery ngxResolveSrv ident name with
      | none =>
        rw [made] at created
        cases created
      | some answer =>
        rw [made] at created
        cases created
        exact right_node_iff made rfl rfl nofun

theorem question_right_iff_example : ∃ rn,
    ngxResolverCreateNameQuery true true (fun _ => 0) 258 772 ("www.Example.com".toList.map Char.toUInt8) =
        .ngxOk rn ∧ rn.qlen = 33 ∧ RightNode ngxResolveA ("www.Example.com".toList.map Char.toUInt8) rn := by
  have created : ∃ rn, ngxResolverCreateNameQuery true true (fun _ => 0) 258 772
      ("www.Example.com".toList.map Char.toUInt8) = .ngxOk rn ∧ rn.qlen = 33 := ⟨_, rfl, rfl⟩
  obtain ⟨rn, isNode, isQlen⟩ := created
  exact ⟨rn, isNode, isQlen, ((question_right_iff _).1 _ _ _ _ _ rn isNode).1.mpr (by decide)⟩

/-- A name that is one label of 64 bytes. -/
theorem question_not_read : ∃ rn,
    ngxResolverCreateSrvQuery true 1 (List.replicate 64 'a'.toUInt8) = .ngxOk rn ∧
      ngxResolverCopy true true rn.query hdrSize = .ok (.ngxError (some "name is out of response")) ∧
      ¬RightNode ngxResolveSrv (List.replicate 64 'a'.toUInt8) rn ∧
      ¬ReadBack (List.replicate 64 'a'.toUInt8) rn.query := by
  have created : ∃ rn, ngxResolverCreateSrvQuery true 1 (List.replicate 64 'a'.toUInt8) = .ngxOk rn ∧
      ngxResolverCopy true true rn.query hdrSize = .ok (.ngxError (some "name is out of response")) :=
    ⟨_, rfl, by decide⟩
  obtain ⟨rn, isNode, refused⟩ := created
  have notBack : ¬ReadBack (List.replicate 64 'a'.toUInt8) rn.query := by
    intro back
    obtain ⟨size, result⟩ := back
    rw [refused] at result
    cases result
  exact ⟨rn, isNode, refused, fun right => notBack right.query.back, notBack⟩

end Queries

end ServerCore.NginxResolverQueryRoundTrip
