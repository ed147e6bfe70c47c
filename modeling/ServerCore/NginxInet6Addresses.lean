import ServerCore.NginxInet6Reading
import ServerCore.PathSegments

/-!
# Which texts `ngx_inet6_addr` reads as RFC 4291 does

A form is cut into the fields that the function reads. What it accepts is an address of the
grammar, and what it gives is the value of the address, but for the texts named before.
-/

namespace ServerCore.NginxInet6Addresses

open NginxHttpParse (Byte Bytes)
open NginxInet NginxInet6Grammar NginxInet6Fields NginxInet6Reading List

variable {octets : List Bytes}

/-- The loop of `ngx_inet6_addr` with the locals that it ends with, also where the function
returns there. -/
def inet6Ends (st : Inet6) : Bytes → Except Inet6 Inet6
  | [] => .ok st
  | c :: p =>
    if c = colon then
      if st.nibbles ≠ 0 then
        if st.n - 1 ≠ 0 then
          inet6Ends { st with
            digit := some p
            addr := st.addr ++ wordBytes st.word
            n := st.n - 1
            nibbles := 0
            word := 0 } p
        else .error { st with digit := some p, addr := st.addr ++ wordBytes st.word, n := st.n - 1 }
      else if st.zero = none then
        inet6Ends { st with digit := some p, zero := some st.addr.length } p
      else .error st
    else if c = dot ∧ st.nibbles ≠ 0 then
      match dottedRest st with
      | some ended => .ok ended
      | none => .error st
    else if st.nibbles + 1 > 4 then .error st
    else
      match hexValue c with
      | some value =>
        inet6Ends { st with nibbles := st.nibbles + 1, word := st.word * 16 + value } p
      | none => .error st

/-- The place behind the last byte that is written. The bytes that are moved end where the
address does. -/
def inet6Written (text : Bytes) : Nat :=
  match inet6Ends {} (if text.head? = some colon then text.tail else text) with
  | .error st => st.addr.length
  | .ok st =>
    if st.nibbles = 0 ∧ st.zero = none then st.addr.length
    else if st.n - 1 ≠ 0 ∧ st.zero ≠ none then st.addr.length + 2 + (st.n - 1) * 2
    else st.addr.length + 2

def Filled (st : Inet6) : Prop := st.addr.length + 2 * st.n = 16

theorem dotted_rest_filled {st ended : Inet6} (filled : Filled st) (isEnd : dottedRest st = some ended) :
    Filled ended ∧ 0 < ended.n := by
  rw [dottedRest] at isEnd
  cases isDigit : st.digit with
  | none =>
    rw [isDigit] at isEnd
    cases isEnd
  | some text =>
    rw [isDigit] at isEnd
    dsimp only at isEnd
    by_cases narrow : st.n < 2
    · rw [if_pos narrow] at isEnd
      cases isEnd
    · rw [if_neg narrow] at isEnd
      by_cases isNone : ngxInetAddr text = inaddrNone
      · rw [if_pos isNone] at isEnd
        cases isEnd
      · rw [if_neg isNone] at isEnd
        cases isEnd
        unfold Filled at filled ⊢
        dsimp only
        rw [length_append, length_cons, length_singleton]
        omega

theorem ends_filled {st : Inet6} (p : Bytes) (filled : Filled st) (pos : 0 < st.n) :
    (∃ ended, inet6Ends st p = .ok ended ∧ Filled ended ∧ 0 < ended.n) ∨
      ∃ ended, inet6Ends st p = .error ended ∧ Filled ended := by
  induction p generalizing st with
  | nil => exact .inl ⟨st, rfl, filled, pos⟩
  | cons c p ih =>
    rw [inet6Ends]
    by_cases isColon : c = colon
    · rw [if_pos isColon]
      by_cases some_ : st.nibbles ≠ 0
      · have written : (st.addr ++ wordBytes st.word).length + 2 * (st.n - 1) = 16 := by
          unfold Filled at filled
          rw [length_append, wordBytes, length_cons, length_singleton]
          omega
        rw [if_pos some_]
        by_cases more : st.n - 1 ≠ 0
        · rw [if_pos more]
          exact ih written (Nat.pos_of_ne_zero more)
        · rw [if_neg more]
          exact .inr ⟨_, rfl, written⟩
      · rw [if_neg some_]
        by_cases noGap : st.zero = none
        · rw [if_pos noGap]
          exact ih filled pos
        · rw [if_neg noGap]
          exact .inr ⟨_, rfl, filled⟩
    · rw [if_neg isColon]
      by_cases isDot : c = dot ∧ st.nibbles ≠ 0
      · rw [if_pos isDot]
        cases isEnd : dottedRest st with
        | none => exact .inr ⟨st, rfl, filled⟩
        | some ended => exact .inl ⟨ended, rfl, dotted_rest_filled filled isEnd⟩
      · rw [if_neg isDot]
        by_cases full : st.nibbles + 1 > 4
        · rw [if_pos full]
          exact .inr ⟨st, rfl, filled⟩
        · rw [if_neg full]
          cases hexValue c with
          | none => exact .inr ⟨st, rfl, filled⟩
          | some value => exact ih filled pos

theorem written_le (text : Bytes) : inet6Written text ≤ 16 := by
  unfold inet6Written
  obtain ⟨ended, isEnd, filled, pos⟩ | ⟨ended, isEnd, filled⟩ :=
    @ends_filled {} (if text.head? = some colon then text.tail else text) rfl (by decide)
  · rw [isEnd]
    unfold Filled at filled
    dsimp only
    split_ifs <;> omega
  · rw [isEnd]
    unfold Filled at filled
    dsimp only
    omega

section Forms

variable {front mid groups : List Bytes} {last : Last} {gap : Option (List Bytes)}

def formOf (gap : Option (List Bytes)) (mid : List Bytes) : Last → Form
  | .empty => ⟨gap, mid, none⟩
  | .group digits => ⟨gap, mid ++ [digits], none⟩
  | .dotted octets => ⟨gap, mid, some octets⟩

/-- What the loop reads of an address, without the colon that is skipped. -/
def readText (gap : Option (List Bytes)) (mid : List Bytes) (last : Last) : Bytes :=
  match gap with
  | none => ended mid ++ last.text
  | some front => ended front ++ colon :: (ended mid ++ last.text)

theorem join_ended (groups : List Bytes) (field : Bytes) :
    [colon].intercalate (groups ++ [field]) = ended groups ++ field := by
  induction groups with
  | nil => simp [ended]
  | cons group groups ih =>
    rw [ended_cons, cons_append, intercalate_cons_of_ne_nil (by simp), ih]
    simp

theorem join_colon (some_ : groups ≠ []) : [colon].intercalate groups ++ [colon] = ended groups := by
  obtain none_ | ⟨front, field, rfl⟩ := eq_nil_or_concat groups
  · exact absurd none_ some_
  · rw [concat_eq_append, join_ended]
    simp [ended]

theorem form_cut (form : Form) : ∃ mid last, form = formOf form.front mid last ∧
    (last = .empty → mid = []) := by
  obtain ⟨gap, groups, octets⟩ := form
  cases octets with
  | some octets => exact ⟨groups, .dotted octets, rfl, nofun⟩
  | none =>
    obtain rfl | ⟨mid, digits, rfl⟩ := eq_nil_or_concat groups
    · exact ⟨[], .empty, rfl, fun _ => rfl⟩
    · rw [concat_eq_append]
      exact ⟨mid, .group digits, rfl, nofun⟩

theorem form_front : (formOf gap mid last).front = gap := by
  cases last <;> rfl

theorem form_fields (some_ : last ≠ .empty) : (formOf gap mid last).fields = mid ++ [last.text] := by
  cases last with
  | empty => cases some_ rfl
  | group digits => exact append_nil _
  | dotted octets => rfl

theorem form_size (some_ : last ≠ .empty) : (formOf gap mid last).size = mid.length + last.size := by
  cases last with
  | empty => cases some_ rfl
  | group digits => exact congrArg (· + 0) length_append
  | dotted octets => rfl

theorem form_end_bytes (some_ : last ≠ .empty) :
    (formOf gap mid last).endBytes = groupBytes mid ++ last.bytes := by
  cases last with
  | empty => cases some_ rfl
  | group digits => simp [formOf, Form.endBytes, groupBytes, Last.bytes, octetBytes]
  | dotted octets => rfl

theorem form_made {end_ : List Bytes → Prop} (ends : last = .empty → mid = []) :
    (formOf gap mid last).Made end_ ↔ (∀ group ∈ gap.getD [] ++ mid, IsGroup group) ∧ last.Ends end_ := by
  cases last with
  | empty =>
    exact ⟨fun made => ⟨made.1, trivial⟩, fun made => ⟨made.1, nofun⟩⟩
  | group digits =>
    have split : gap.getD [] ++ (mid ++ [digits]) = gap.getD [] ++ mid ++ [digits] :=
      (append_assoc _ _ _).symm
    constructor
    · rintro ⟨areGroups, -⟩
      change ∀ group ∈ gap.getD [] ++ (mid ++ [digits]), IsGroup group at areGroups
      rw [split] at areGroups
      obtain ⟨fronts, lasts⟩ := forall_mem_append.1 areGroups
      exact ⟨fronts, lasts digits (mem_singleton_self digits)⟩
    · rintro ⟨areGroups, isGroup⟩
      refine ⟨?_, nofun⟩
      change ∀ group ∈ gap.getD [] ++ (mid ++ [digits]), IsGroup group
      rw [split]
      exact forall_mem_append.2 ⟨areGroups, forall_mem_singleton.2 isGroup⟩
  | dotted octets =>
    constructor
    · rintro ⟨areGroups, isEnd⟩
      exact ⟨areGroups, isEnd octets rfl⟩
    · rintro ⟨areGroups, isEnd⟩
      refine ⟨areGroups, ?_⟩
      intro other same
      injection same with same
      exact same ▸ isEnd

theorem form_text (ends : last = .empty → mid = []) (hasGap : last = .empty → gap ≠ none) :
    (formOf gap mid last).text =
      if gap = some [] then colon :: readText gap mid last else readText gap mid last := by
  by_cases isEmpty : last = .empty
  · obtain rfl := ends isEmpty
    subst isEmpty
    cases gap with
    | none => exact absurd rfl (hasGap rfl)
    | some front =>
      by_cases noFront : front = []
      · subst noFront
        rw [if_pos rfl]
        rfl
      · have other : some front ≠ some [] := fun same => noFront (Option.some.inj same)
        rw [if_neg other, readText, ← join_colon noFront]
        change [colon].intercalate front ++ [colon, colon] ++ [] = _
        simp [ended, Last.text]
  · cases gap with
    | none =>
      have isText : (formOf none mid last).text = [colon].intercalate (formOf none mid last).fields := by
        unfold Form.text
        rw [form_front]
      rw [isText, form_fields isEmpty, join_ended, if_neg (by simp)]
      rfl
    | some front =>
      have isText : (formOf (some front) mid last).text =
          [colon].intercalate front ++ [colon, colon] ++ [colon].intercalate
            (formOf (some front) mid last).fields := by
        unfold Form.text
        rw [form_front]
      rw [isText, form_fields isEmpty, join_ended]
      by_cases noFront : front = []
      · subst noFront
        rw [if_pos rfl]
        rfl
      · have other : some front ≠ some [] := fun same => noFront (Option.some.inj same)
        rw [if_neg other, readText, ← join_colon noFront]
        simp

theorem group_head {group rest : Bytes} (isGroup : IsGroup group) :
    (group ++ rest).head? ≠ some colon ∧ colon ∉ group := by
  obtain ⟨some_, -, areHex⟩ := isGroup
  have plain : colon ∉ group := fun isMem => (digit_plain (areHex colon isMem)).1 rfl
  cases group with
  | nil => cases some_ rfl
  | cons c group =>
    refine ⟨fun isColon => plain ?_, plain⟩
    cases isColon
    exact mem_cons_self ..

def Fronted (gap : Option (List Bytes)) (mid : List Bytes) : Prop :=
  match gap with
  | none => mid ≠ []
  | some front => front ≠ []

theorem read_text_head (areGroups : ∀ group ∈ gap.getD [] ++ mid, IsGroup group)
    (fronted : Fronted gap mid) :
    (readText gap mid last).head? ≠ some colon := by
  cases gap with
  | none =>
    cases mid with
    | nil => cases fronted rfl
    | cons group mid =>
      rw [readText, ended_cons]
      exact (group_head (areGroups group (mem_cons_self ..))).1
  | some front =>
    cases front with
    | nil => cases fronted rfl
    | cons group front =>
      rw [readText, ended_cons]
      exact (group_head (areGroups group (mem_cons_self ..))).1

theorem addr_colon (text : Bytes) :
    ngxInet6Addr (colon :: text) = (inet6Loop {} text).bind inet6Finish := by
  rw [ngxInet6Addr, if_neg (by simp)]
  exact congrArg (fun read => (inet6Loop {} read).bind inet6Finish) (if_pos rfl)

theorem addr_plain {text : Bytes} (plain : text.head? ≠ some colon) :
    ngxInet6Addr text = (inet6Loop {} text).bind inet6Finish := by
  cases text with
  | nil => rfl
  | cons c text =>
    rw [ngxInet6Addr, if_neg (by simp)]
    exact congrArg (fun read => (inet6Loop {} read).bind inet6Finish) (if_neg plain)

/-- What the function gives for a text in which it reads these fields. -/
def readBytes (gap : Option (List Bytes)) (mid : List Bytes) (last : Last) : Option Bytes :=
  match gap with
  | none => if mid.length + last.size = 8 then some (groupBytes mid ++ last.bytes) else none
  | some front =>
    if front.length + mid.length + last.size ≤ 7 then
      some (groupBytes front ++ List.replicate (2 * (8 - (front.length + mid.length + last.size))) 0 ++
        (groupBytes mid ++ last.bytes))
    else none

theorem read_text (areGroups : ∀ group ∈ gap.getD [] ++ mid, IsGroup group) (fine : last.Fine)
    (hasGap : last = .empty → gap ≠ none) (enough : (gap.getD []).length + mid.length + last.size ≤ 8)
    (hasMid : gap = none → mid ≠ []) :
    (inet6Loop {} (readText gap mid last)).bind inet6Finish = readBytes gap mid last := by
  cases gap with
  | none =>
    refine read_full areGroups fine (fun isEmpty => hasGap isEmpty rfl) (by omega) ?_
    exact fun _ _ => hasMid rfl
  | some front =>
    change front.length + mid.length + last.size ≤ 8 at enough
    have shortGroups : ∀ group ∈ front ++ mid, IsGroup group := areGroups
    refine (read_short shortGroups fine enough).trans ?_
    rw [readBytes]
    by_cases eight : front.length + mid.length + last.size = 8
    · rw [if_pos eight, if_neg (by omega)]
    · rw [if_neg eight, if_pos (by omega)]

theorem read_form (areGroups : ∀ group ∈ gap.getD [] ++ mid, IsGroup group) (fine : last.Fine)
    (ends : last = .empty → mid = []) (hasGap : last = .empty → gap ≠ none)
    (enough : (gap.getD []).length + mid.length + last.size ≤ 8) (hasMid : gap = none → mid ≠ []) :
    ngxInet6Addr (formOf gap mid last).text = readBytes gap mid last := by
  rw [form_text ends hasGap, ← read_text areGroups fine hasGap enough hasMid]
  by_cases atGap : gap = some []
  · rw [if_pos atGap, addr_colon]
  · rw [if_neg atGap]
    refine addr_plain (read_text_head areGroups ?_)
    cases gap with
    | none => exact hasMid rfl
    | some front => exact fun isNil => atGap (congrArg some isNil)

theorem reading_cut {text value : Bytes} (accepted : (inet6Loop {} text).bind inet6Finish = some value) :
    ∃ (gap : Option (List Bytes)) (mid : List Bytes) (last : Last), text = readText gap mid last ∧
      (∀ group ∈ gap.getD [] ++ mid, IsGroup group) ∧ last.Fine ∧ (last = .empty → gap ≠ none) ∧
      (gap = none → mid ≠ []) ∧ readBytes gap mid last = some value := by
  obtain ⟨inner, last, rfl, areGroups, fine, some_, eight, rfl⟩ |
      ⟨front, mid, last, rfl, areGroups, fine, few, rfl⟩ :=
    reading_shape accepted
  · refine ⟨none, inner, last, rfl, areGroups, fine, fun isEmpty => absurd isEmpty some_, ?_, if_pos eight⟩
    rintro - rfl
    have small := last.size_le
    rw [length_nil] at eight
    omega
  · exact ⟨some front, mid, last, rfl, areGroups, fine, fun _ => Option.some_ne_none front,
      nofun, if_pos few⟩

theorem form_bytes (ends : last = .empty → mid = []) (counted : (formOf gap mid last).Counted)
    (hasGap : last = .empty → gap ≠ none) (open_ : ¬(formOf gap mid last).Closing) :
    readBytes gap mid last = some (formOf gap mid last).bytes := by
  by_cases isEmpty : last = .empty
  · obtain rfl := ends isEmpty
    subst isEmpty
    cases gap with
    | none => exact absurd rfl (hasGap rfl)
    | some front =>
      have few : front.length + 0 + 1 ≤ 7 := by
        have most : front.length + 0 ≤ 7 := counted
        have notSeven : front.length ≠ 7 := fun seven => open_ ⟨front, rfl, seven, rfl, rfl⟩
        omega
      refine (if_pos few).trans (congrArg some ?_)
      have zeros : List.replicate (2 * (8 - front.length - 0)) (0 : Byte) =
          List.replicate (2 * (8 - (front.length + 0 + 1))) 0 ++ [0, 0] := by
        have two : ([0, 0] : Bytes) = List.replicate 2 0 := rfl
        rw [two, replicate_append_replicate]
        congr 1
        omega
      change groupBytes front ++ List.replicate (2 * (8 - (front.length + 0 + 1))) 0 ++ [0, 0] =
        groupBytes front ++ List.replicate (2 * (8 - front.length - 0)) 0 ++ []
      rw [zeros, append_nil, append_assoc]
  · unfold Form.Counted at counted
    unfold Form.bytes
    rw [form_front, form_size isEmpty] at counted ⊢
    rw [form_end_bytes isEmpty]
    cases gap with
    | none => exact if_pos counted
    | some front =>
      refine (if_pos (by rw [Nat.add_assoc]; exact counted)).trans (congrArg some ?_)
      dsimp only
      rw [Nat.add_assoc, Nat.sub_sub]

theorem mem_dotted {c : Byte} (isMem : c ∈ Form.dotted octets) :
    c = dot ∨ ∃ octet ∈ octets, c ∈ octet := by
  unfold Form.dotted at isMem
  induction octets with
  | nil => cases isMem
  | cons first rest ih =>
    cases rest with
    | nil =>
      rw [intercalate_singleton] at isMem
      exact .inr ⟨first, mem_singleton_self first, isMem⟩
    | cons second rest =>
      obtain here | behind := mem_append.1 isMem
      · exact .inr ⟨first, mem_cons_self .., here⟩
      · obtain isDot | later := mem_append.1 behind
        · exact .inl (mem_singleton.1 isDot)
        · exact (ih later).imp id fun ⟨octet, isOctet, here⟩ => ⟨octet, mem_cons_of_mem _ isOctet, here⟩

theorem dotted_plain (loose : ∀ octet ∈ octets, LooseOctet octet) : colon ∉ Form.dotted octets := by
  intro isMem
  obtain isDot | ⟨octet, isOctet, here⟩ := mem_dotted isMem
  · exact absurd isDot (by decide)
  · exact absurd ((loose octet isOctet).1 colon here) (by decide)

def Loose (octets : List Bytes) : Prop := octets.length = 4 ∧ ∀ octet ∈ octets, LooseOctet octet

theorem loose_of_dotted (octets : List Bytes) (isDotted : IsDotted octets) : Loose octets :=
  ⟨isDotted.1, fun octet isOctet => (isDotted.2 octet isOctet).2.2⟩

theorem loose_of_tolerable (octets : List Bytes) (tolerable : Tolerable octets) : Loose octets :=
  ⟨tolerable.1, tolerable.2.1⟩

theorem last_plain (loose : last.Ends Loose) : colon ∉ last.text := by
  cases last with
  | empty => exact not_mem_nil
  | group digits => exact (@group_head digits [] loose).2
  | dotted octets => exact dotted_plain loose.2

theorem read_text_last (hasMid : gap = none → mid ≠ []) :
    ∃ path, readText gap mid last = path ++ colon :: last.text := by
  have behind : ∀ {groups : List Bytes}, groups ≠ [] →
      ended groups ++ last.text = [colon].intercalate groups ++ colon :: last.text := by
    intro groups some_
    rw [← join_colon some_, append_assoc]
    rfl
  cases gap with
  | none => exact ⟨_, behind (hasMid rfl)⟩
  | some front =>
    by_cases noMid : mid = []
    · exact ⟨ended front, by rw [noMid]; rfl⟩
    · refine ⟨ended front ++ colon :: [colon].intercalate mid, ?_⟩
      rw [readText, behind noMid, append_assoc]
      rfl

theorem form_text_last (ends : last = .empty → mid = []) (hasGap : last = .empty → gap ≠ none)
    (hasMid : gap = none → mid ≠ []) : ∃ path, (formOf gap mid last).text = path ++ colon :: last.text := by
  obtain ⟨path, isText⟩ := @read_text_last mid last gap hasMid
  rw [form_text ends hasGap, isText]
  by_cases atGap : gap = some []
  · exact ⟨colon :: path, if_pos atGap⟩
  · exact ⟨path, if_neg atGap⟩

theorem behind_last_colon {path other field rest : Bytes}
    (same : path ++ colon :: field = other ++ colon :: rest)
    (plain : colon ∉ field) (restPlain : colon ∉ rest) : field = rest := by
  have split := congrArg (List.splitOn colon) same
  rw [PathSegments.split_append_segment path plain,
    PathSegments.split_append_segment other restPlain] at split
  exact singleton_inj.1 (append_inj_right' split rfl)

theorem last_dotted (ends : last.Ends Loose) (loose : Loose octets)
    (same : last.text = Form.dotted octets) : last = .dotted octets := by
  have dotFree : ∀ {row : List Bytes}, Loose row → ∀ octet ∈ row, dot ∉ octet :=
    fun rowLoose octet isOctet isDot => digit_not_dot ((rowLoose.2 octet isOctet).1 dot isDot) rfl
  obtain ⟨o0, o1, o2, o3, rfl⟩ := four_octets loose.1
  obtain ⟨behind, isDotted⟩ := dotted_text o0 o1 o2 o3
  have hasDot : dot ∈ last.text := by
    rw [same, isDotted]
    exact mem_append_right _ (mem_cons_self ..)
  cases last with
  | empty => cases hasDot
  | group digits => exact absurd rfl (digit_plain (ends.2.2 dot hasDot)).2
  | dotted others =>
    have someOthers : others ≠ [] := by
      rintro rfl
      cases ends.1
    have split := congrArg (List.splitOn dot) same
    unfold Last.text Form.dotted at split
    rw [splitOn_intercalate dot (dotFree ends) someOthers,
      splitOn_intercalate dot (dotFree loose) (cons_ne_nil _ _)] at split
    rw [split]

end Forms

end ServerCore.NginxInet6Addresses
