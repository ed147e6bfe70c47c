import ServerCore.NginxInet6Fields

/-!
# What `ngx_inet6_addr` accepts

The text is a row of groups with at most one empty field among them, and a last field. The
function accepts it if the groups are not too many, and what it gives is then the groups
with zeros at the place of the empty field.
-/

namespace ServerCore.NginxInet6Reading

open NginxHttpParse (Byte Bytes)
open NginxInet NginxInetRoundTrip NginxInet6Grammar NginxInet6Fields List

variable {st : Inet6}
variable {b0 b1 b2 b3 : Byte} {octets : List Bytes}

inductive Last where
  | empty
  | group (digits : Bytes)
  | dotted (octets : List Bytes)

namespace Last

def text : Last → Bytes
  | .empty => []
  | .group digits => digits
  | .dotted octets => Form.dotted octets

def size : Last → Nat
  | .dotted _ => 2
  | _ => 1

def bytes : Last → Bytes
  | .empty => [0, 0]
  | .group digits => wordBytes (groupValue digits)
  | .dotted octets => octetBytes octets

def Ends (end_ : List Bytes → Prop) : Last → Prop
  | .empty => True
  | .group digits => IsGroup digits
  | .dotted octets => end_ octets

def Fine (last : Last) : Prop := last.Ends Tolerable

theorem ends_imp {end_ other : List Bytes → Prop} {last : Last}
    (weaker : ∀ octets, end_ octets → other octets)
    (ends : last.Ends end_) : last.Ends other := by
  cases last with
  | empty => exact trivial
  | group digits => exact ends
  | dotted octets => exact weaker octets ends

theorem size_pos (last : Last) : 0 < last.size := by
  cases last <;> exact Nat.succ_pos _

theorem size_le (last : Last) : last.size ≤ 2 := by
  cases last <;> simp [size]

end Last

/-- The end of the function: `left` groups have not been written. -/
def closed (addr : Bytes) (zero : Option Nat) (left : Nat) : Option Bytes :=
  if left ≠ 0 then
    match zero with
    | some place => some (addr.take place ++ List.replicate (left * 2) 0 ++ addr.drop place)
    | none => none
  else if zero = none then some addr
  else none

section Lasts

variable {addr value : Bytes} {zero : Option Nat} {digit : Option Bytes} {n : Nat} {last : Last}

theorem finish_some (some_ : st.nibbles ≠ 0 ∨ st.zero ≠ none) :
    inet6Finish st = closed (st.addr ++ wordBytes st.word) st.zero (st.n - 1) :=
  if_neg fun none_ => some_.elim (absurd none_.1) (absurd none_.2)

theorem hex_of_digit {c : Byte} (digit : isDigit c = true) : digitValue c ≠ none := by
  have isHex : hexValue c = some (digitOf c) := if_pos digit
  rw [← hex_value_eq, isHex]
  exact Option.some_ne_none _

theorem none_iff_bytes :
    (⟨b0, b1, b2, b3⟩ : InAddr) = inaddrNone ↔ [b0, b1, b2, b3] = [255, 255, 255, 255] := by
  rw [inaddrNone, InAddr.mk.injEq]
  simp

theorem four_octets (four : octets.length = 4) :
    ∃ o0 o1 o2 o3, octets = [o0, o1, o2, o3] := by
  match octets, four with
  | [o0, o1, o2, o3], _ => exact ⟨o0, o1, o2, o3, rfl⟩

theorem dotted_text (o0 o1 o2 o3 : Bytes) : ∃ behind, Form.dotted [o0, o1, o2, o3] =
    o0 ++ dot :: behind := by
  refine ⟨Form.dotted [o1, o2, o3], ?_⟩
  simp [Form.dotted]

theorem dotted_rest_some {text : Bytes} (isDigit : st.digit = some text)
    (enough : 2 ≤ st.n) (isAddr : ngxInetAddr text = ⟨b0, b1, b2, b3⟩)
    (accepted : (⟨b0, b1, b2, b3⟩ : InAddr) ≠ inaddrNone) :
    dottedRest st =
      some { st with addr := st.addr ++ [b0, b1], word := ntohl ⟨b0, b1, b2, b3⟩, n := st.n - 1 } := by
  obtain ⟨high, low, -⟩ := NginxInetRoundTrip.ntohl_parts b0 b1 b2 b3
  rw [dottedRest, isDigit]
  dsimp only
  rw [if_neg (not_lt.2 enough), isAddr, if_neg accepted, high, low]

theorem read_dotted_last (tolerable : Tolerable octets) (enough : 2 ≤ n)
    (isDigit : digit = some (Form.dotted octets)) :
    (inet6Loop (between addr zero digit n) (Form.dotted octets)).bind inet6Finish =
      closed (addr ++ octetBytes octets) zero (n - 2) := by
  obtain ⟨four, loose, first, notNone⟩ := tolerable
  obtain ⟨o0, o1, o2, o3, rfl⟩ := four_octets four
  obtain ⟨some_, few⟩ := first o0 rfl
  obtain ⟨loose0, loose1, loose2, loose3, -⟩ : LooseOctet o0 ∧ LooseOctet o1 ∧
      LooseOctet o2 ∧ LooseOctet o3 ∧ True :=
    ⟨loose o0 (by simp), loose o1 (by simp), loose o2 (by simp), loose o3 (by simp), trivial⟩
  obtain ⟨behind, isText⟩ := dotted_text o0 o1 o2 o3
  have read := inet_dotted loose0 loose1 loose2 loose3
  have accepted := mt none_iff_bytes.1 notNone
  have length : o0.length ≠ 0 := fun isZero => some_ (eq_nil_of_length_eq_zero isZero)
  obtain ⟨-, -, word⟩ :=
    NginxInetRoundTrip.ntohl_parts (UInt8.ofNat (decimalValue o0)) (UInt8.ofNat (decimalValue o1))
    (UInt8.ofNat (decimalValue o2)) (UInt8.ofNat (decimalValue o3))
  rw [isText] at isDigit read
  rw [isText, read_hex (fun c isMem => hex_of_digit (loose0.1 c isMem))
    (by rw [between, zero_add]; exact few),
    inet6Loop, if_neg (by decide), if_pos ⟨rfl, by dsimp only [between]; omega⟩,
    dotted_rest_some isDigit enough read accepted, Option.bind_some,
    finish_some (.inl (by dsimp only [between]; omega))]
  rw [word, Nat.sub_sub, append_assoc]
  rfl

theorem last_reads (fine : last.Fine) (enough : last.size ≤ n) (hasGap : last = .empty → zero ≠ none)
    (hasColon : ∀ octets, last = .dotted octets → digit = some last.text) :
    (inet6Loop (between addr zero digit n) last.text).bind inet6Finish =
      closed (addr ++ last.bytes) zero (n - last.size) := by
  cases last with
  | empty =>
    change inet6Finish (between addr zero digit n) = _
    have isZero : wordBytes 0 = [0, 0] := by decide
    rw [finish_some (.inr (hasGap rfl))]
    dsimp only [between]
    rw [isZero]
    rfl
  | group digits =>
    obtain ⟨some_, few, areHex⟩ := fine
    have length : digits.length ≠ 0 := fun isZero => some_ (eq_nil_of_length_eq_zero isZero)
    have read := @read_hex digits (between addr zero digit n) areHex
      (by rw [between, zero_add]; exact few) []
    rw [append_nil] at read
    change (inet6Loop (between addr zero digit n) digits).bind inet6Finish = _
    rw [read, inet6Loop, Option.bind_some, finish_some (.inl (by dsimp only [between]; omega))]
    rfl
  | dotted octets => exact read_dotted_last fine enough (hasColon octets rfl)

theorem before_dot {front other rest more : Bytes} (same : front ++ dot :: rest = other ++ dot :: more)
    (plain : dot ∉ front) (otherPlain : dot ∉ other) : front = other := by
  have cut : ∀ {part behind : Bytes}, dot ∉ part → (part ++ dot :: behind).takeWhile (· ≠ dot) = part := by
    intro part behind absent
    rw [takeWhile_append_of_pos, takeWhile_cons_of_neg (by simp), append_nil]
    intro c isMem
    exact decide_eq_true fun isDot => absent (isDot ▸ isMem)
  rw [← @cut front rest plain, same, cut otherPlain]

theorem last_accepted {field : Bytes} (plain : colon ∉ field) (pos : 0 < n)
    (isDigit : digit = none ∨ digit = some field)
    (accepted : (inet6Loop (between addr zero digit n) field).bind inet6Finish = some value) :
    ∃ last : Last, field = last.text ∧ last.Fine ∧ last.size ≤ n ∧ (last = .empty → zero ≠ none) ∧
      (∀ octets, last = .dotted octets → digit = some last.text) := by
  have cases_ := @field_cases (between addr zero digit n) field plain (Nat.zero_le _) []
  rw [append_nil] at cases_
  obtain ⟨areHex, few⟩ | stops | ⟨digits, behind, word, isField, areHex, few, some_, isEnd⟩ := cases_
  · cases field with
    | nil =>
      refine ⟨.empty, rfl, trivial, pos, ?_, by simp⟩
      rintro - rfl
      cases accepted
    | cons c field =>
      refine ⟨.group (c :: field), rfl, ⟨cons_ne_nil _ _, ?_, areHex⟩, pos, by simp, by simp⟩
      rw [between, zero_add] at few
      exact few
  · rw [stops] at accepted
    cases accepted
  · rw [isEnd] at accepted
    dsimp only [between] at accepted few some_
    rw [dottedRest] at accepted
    obtain rfl | rfl := isDigit
    · cases accepted
    · dsimp only at accepted
      by_cases narrow : n < 2
      · rw [if_pos narrow] at accepted
        cases accepted
      · rw [if_neg narrow] at accepted
        by_cases isNone : ngxInetAddr field = inaddrNone
        · rw [if_pos isNone] at accepted
          cases accepted
        · obtain ⟨octets, isText, four, loose⟩ := inet_taken_octets isNone
          refine ⟨.dotted octets, isText, ⟨four, loose, ?_, ?_⟩, Nat.le_of_not_lt narrow,
            by simp, fun _ _ => congrArg some isText⟩
          · obtain ⟨o0, o1, o2, o3, rfl⟩ := four_octets four
            obtain ⟨tail, isDotted⟩ := dotted_text o0 o1 o2 o3
            intro first isFirst
            cases isFirst
            have same : digits = o0 := by
              refine @before_dot digits o0 behind tail ?_ ?_ ?_
              · rw [← isField, isText, isDotted]
              · exact fun isMem => (digit_plain (areHex dot isMem)).2 rfl
              · exact fun isMem => digit_not_dot ((loose o0 (by simp)).1 dot isMem) rfl
            rw [← same]
            rw [zero_add] at few some_
            exact ⟨fun isNil => some_ (by rw [isNil]; rfl), few⟩
          · obtain ⟨o0, o1, o2, o3, rfl⟩ := four_octets four
            intro isBroadcast
            refine isNone ?_
            rw [isText, inet_dotted (loose o0 (by simp)) (loose o1 (by simp))
              (loose o2 (by simp)) (loose o3 (by simp))]
            exact none_iff_bytes.2 isBroadcast

end Lasts

section Texts

variable {addr value text : Bytes} {zero : Option Nat} {digit : Option Bytes} {n : Nat} {last : Last}
  {inner front mid : List Bytes}

theorem dotted_rest_colon (isDigit : st.digit = none ∨ ∃ text, st.digit = some text ∧ colon ∈ text) :
    dottedRest st = none := by
  rw [dottedRest]
  obtain none_ | ⟨text, isText, hasColon⟩ := isDigit
  · rw [none_]
  · rw [isText]
    dsimp only
    rw [if_pos (inet_foreign hasColon (by decide) (by decide)), ite_self]

theorem groups_accepted (pos : 0 < n) (isDigit : digit = none ∨ digit = some text)
    (accepted : (inet6Loop (between addr zero digit n) text).bind inet6Finish = some value) :
    ∃ groups rest, text = ended groups ++ rest ∧ (∀ group ∈ groups, IsGroup group) ∧ groups.length < n ∧
      (colon ∉ rest ∨ ∃ more, rest = colon :: more ∧ zero = none) := by
  induction isSize : text.length using Nat.strongRecOn generalizing text addr digit n with
  | ind size ih =>
    have noGroups : ∀ group ∈ ([] : List Bytes), IsGroup group := nofun
    by_cases hasColon : colon ∈ text
    · obtain ⟨field, rest, rfl, plain⟩ := eq_append_cons_of_mem hasColon
      obtain ⟨areHex, few⟩ | stops | ⟨digits, behind, word, isField, -, -, -, isEnd⟩ :=
        @field_cases (between addr zero digit n) field plain (Nat.zero_le _) (colon :: rest)
      · cases field with
        | nil =>
          rw [nil_append, read_gap] at accepted
          by_cases noGap : zero = none
          · exact ⟨[], colon :: rest, rfl, noGroups, pos, .inr ⟨rest, rfl, noGap⟩⟩
          · rw [if_neg noGap] at accepted
            cases accepted
        | cons c field =>
          have isGroup : IsGroup (c :: field) := by
            rw [between, zero_add] at few
            exact ⟨cons_ne_nil _ _, few, areHex⟩
          rw [read_group isGroup] at accepted
          by_cases more : n - 1 ≠ 0
          · rw [if_pos more] at accepted
            have shorter : rest.length < size := by
              rw [← isSize, length_append, length_cons, length_cons]
              omega
            obtain ⟨groups, behind, isText, areGroups, enough, isRest⟩ :=
              ih rest.length shorter (Nat.pos_of_ne_zero more) (.inr rfl) accepted rfl
            refine ⟨(c :: field) :: groups, behind, ?_, forall_mem_cons.2 ⟨isGroup, areGroups⟩, ?_, isRest⟩
            · rw [ended_cons, isText]
            · rw [length_cons]
              omega
          · rw [if_neg more] at accepted
            cases accepted
      · rw [stops] at accepted
        cases accepted
      · have refused : dottedRest { between addr zero digit n with
            nibbles := (between addr zero digit n).nibbles + digits.length, word := word } = none := by
          refine dotted_rest_colon (isDigit.imp id fun isSome => ⟨_, isSome, ?_⟩)
          exact mem_append_right _ (mem_cons_self ..)
        rw [isEnd, refused] at accepted
        cases accepted
    · exact ⟨[], text, rfl, noGroups, pos, .inl hasColon⟩

theorem closed_full (addr : Bytes) (left : Nat) :
    closed addr none left = if left = 0 then some addr else none := by
  unfold closed
  by_cases isFull : left = 0
  · rw [if_neg (not_not_intro isFull), if_pos rfl, if_pos isFull]
  · rw [if_pos isFull, if_neg isFull]

theorem closed_gap (front behind : Bytes) (left : Nat) :
    closed (front ++ behind) (some front.length) left =
      if left = 0 then none else some (front ++ List.replicate (left * 2) 0 ++ behind) := by
  unfold closed
  by_cases isFull : left = 0
  · rw [if_neg (not_not_intro isFull), if_pos isFull, if_neg (Option.some_ne_none _)]
  · rw [if_pos isFull, if_neg isFull]
    dsimp only
    rw [take_left, drop_left]

theorem read_full (areGroups : ∀ group ∈ inner, IsGroup group) (fine : last.Fine) (some_ : last ≠ .empty)
    (enough : inner.length + last.size ≤ 8) (hasColon : ∀ octets, last = .dotted octets → inner ≠ []) :
    (inet6Loop {} (ended inner ++ last.text)).bind inet6Finish =
      if inner.length + last.size = 8 then some (groupBytes inner ++ last.bytes) else none := by
  have pos := last.size_pos
  change (inet6Loop (between [] none none 8) (ended inner ++ last.text)).bind inet6Finish = _
  rw [read_groups areGroups (by decide), if_pos (by omega), nil_append,
    last_reads fine (by omega) (fun isEmpty => absurd isEmpty some_), closed_full]
  · by_cases eight : inner.length + last.size = 8
    · rw [if_pos (by omega), if_pos eight]
    · rw [if_neg (by omega), if_neg eight]
  · exact fun octets isDotted => if_neg (hasColon octets isDotted)

theorem read_short (areGroups : ∀ group ∈ front ++ mid, IsGroup group) (fine : last.Fine)
    (enough : front.length + mid.length + last.size ≤ 8) :
    (inet6Loop {} (ended front ++ colon :: (ended mid ++ last.text))).bind inet6Finish =
      if front.length + mid.length + last.size = 8 then none
      else some (groupBytes front ++
        List.replicate (2 * (8 - (front.length + mid.length + last.size))) 0 ++
          (groupBytes mid ++ last.bytes)) := by
  have pos := last.size_pos
  obtain ⟨frontGroups, midGroups⟩ := forall_mem_append.1 areGroups
  change (inet6Loop (between [] none none 8)
    (ended front ++ colon :: (ended mid ++ last.text))).bind inet6Finish = _
  rw [read_groups frontGroups (by decide), if_pos (by omega), nil_append, read_gap, if_pos rfl,
    read_groups midGroups (by omega), if_pos (by omega),
    last_reads fine (by omega) (fun _ => Option.some_ne_none _), append_assoc, closed_gap, mul_comm]
  · have left : 8 - front.length - mid.length - last.size =
        8 - (front.length + mid.length + last.size) := by omega
    rw [left]
    by_cases eight : front.length + mid.length + last.size = 8
    · rw [if_pos (by omega), if_pos eight]
    · rw [if_neg (by omega), if_neg eight, mul_comm]
  · intro octets _
    cases mid <;> rfl

theorem reading_shape (accepted : (inet6Loop {} text).bind inet6Finish = some value) :
    (∃ (inner : List Bytes) (last : Last), text = ended inner ++ last.text ∧
      (∀ group ∈ inner, IsGroup group) ∧ last.Fine ∧
        last ≠ .empty ∧ inner.length + last.size = 8 ∧ value = groupBytes inner ++ last.bytes) ∨
      ∃ (front mid : List Bytes) (last : Last), text = ended front ++ colon :: (ended mid ++ last.text) ∧
        (∀ group ∈ front ++ mid, IsGroup group) ∧ last.Fine ∧ front.length + mid.length + last.size ≤ 7 ∧
        value = groupBytes front ++
          List.replicate (2 * (8 - (front.length + mid.length + last.size))) 0 ++
            (groupBytes mid ++ last.bytes) := by
  obtain ⟨front, rest, rfl, frontGroups, room, isRest⟩ :=
    @groups_accepted [] value text none none 8 (by decide) (.inl rfl) accepted
  have behind := accepted
  change (inet6Loop (between [] none none 8) _).bind inet6Finish = some value at behind
  rw [read_groups frontGroups (by decide), if_pos room, nil_append] at behind
  obtain plain | ⟨more, rfl, -⟩ := isRest
  · have isDigit : digitAfter none front rest = none ∨ digitAfter none front rest = some rest := by
      cases front with
      | nil => exact .inl rfl
      | cons group groups => exact .inr rfl
    obtain ⟨last, rfl, fine, enough, hasGap, hasColon⟩ := last_accepted plain (by omega) isDigit behind
    have some_ : last ≠ .empty := fun isEmpty => hasGap isEmpty rfl
    rw [read_full frontGroups fine some_ (by omega)] at accepted
    · by_cases eight : front.length + last.size = 8
      · rw [if_pos eight] at accepted
        injection accepted with isValue
        exact .inl ⟨front, last, rfl, frontGroups, fine, some_, eight, isValue.symm⟩
      · rw [if_neg eight] at accepted
        cases accepted
    · rintro octets isDotted rfl
      cases hasColon octets isDotted
  · rw [read_gap, if_pos rfl] at behind
    obtain ⟨mid, rest, rfl, midGroups, midRoom, isRest⟩ := groups_accepted (by omega) (.inr rfl) behind
    rw [read_groups midGroups (by omega), if_pos midRoom] at behind
    obtain plain | ⟨more, -, noGap⟩ := isRest
    · have isDigit : digitAfter (some (ended mid ++ rest)) mid rest = none ∨
          digitAfter (some (ended mid ++ rest)) mid rest = some rest := by
        cases mid <;> exact .inr rfl
      obtain ⟨last, rfl, fine, enough, -, -⟩ := last_accepted plain (by omega) isDigit behind
      have areGroups := forall_mem_append.2 ⟨frontGroups, midGroups⟩
      rw [read_short areGroups fine (by omega)] at accepted
      by_cases eight : front.length + mid.length + last.size = 8
      · rw [if_pos eight] at accepted
        cases accepted
      · rw [if_neg eight] at accepted
        injection accepted with isValue
        exact .inr ⟨front, mid, last, rfl, areGroups, fine, by omega, isValue.symm⟩
    · cases noGap

end Texts

end ServerCore.NginxInet6Reading
