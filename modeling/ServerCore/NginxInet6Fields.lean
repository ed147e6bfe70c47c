import ServerCore.NginxInet6Grammar

/-!
# The fields that `ngx_inet6_addr` reads

The text between two colons is a group, is empty, or stops the function. What is behind
the last colon may also be a dotted end. Each of these is described by the state that the
loop is in afterwards.
-/

namespace ServerCore.NginxInet6Fields

open NginxHttpParse (Byte Bytes)
open NginxInet NginxInetRoundTrip NginxInet6Grammar List

variable {c : Byte} {addr octet n : Nat} {digits text : Bytes} {st : Inet6}

theorem hex_value_eq (c : Byte) : hexValue c = digitValue c := by
  have all : ∀ code : Fin 256, hexValue (UInt8.ofNat code.val) =
      digitValue (UInt8.ofNat code.val) := by decide +kernel
  have here := all ⟨c.toNat, c.toNat_lt⟩
  rw [UInt8.ofNat_toNat] at here
  exact here

theorem digit_plain (isHex : digitValue c ≠ none) : c ≠ colon ∧ c ≠ dot := by
  constructor
  · rintro rfl
    exact isHex (by decide)
  · rintro rfl
    exact isHex (by decide)

def valueFrom (start : Nat) (digits : Bytes) : Nat :=
    digits.foldl (fun value c => value * 10 + digitOf c) start

theorem le_value_from (start : Nat) (digits : Bytes) : start ≤ valueFrom start digits := by
  induction digits generalizing start with
  | nil => exact le_rfl
  | cons c digits ih => exact le_trans (by omega) (ih (start * 10 + digitOf c))

theorem digit_not_dot (digit : isDigit c = true) : c ≠ dot := by
  rintro rfl
  exact absurd digit (by decide)

theorem read_decimal {rest : Bytes} (areDigits : ∀ c ∈ digits, isDigit c = true)
    (small : valueFrom octet digits ≤ 255) :
    inetLoop addr octet n (digits ++ rest) = inetLoop addr (valueFrom octet digits) n rest := by
  induction digits generalizing octet with
  | nil => rfl
  | cons c digits ih =>
    have step : valueFrom octet (c :: digits) = valueFrom (octet * 10 + digitOf c) digits := rfl
    have bound := le_value_from (octet * 10 + digitOf c) digits
    rw [step] at small ⊢
    rw [cons_append, inetLoop, if_pos (areDigits c (mem_cons_self ..))]
    simp only
    rw [if_neg (by omega), ih (fun other isOther => areDigits other (mem_cons_of_mem _ isOther)) small]

def LooseOctet (octet : Bytes) : Prop := (∀ c ∈ octet, isDigit c = true) ∧ decimalValue octet ≤ 255

theorem loose_byte {octet : Bytes} (loose : LooseOctet octet) :
    valueFrom 0 octet = (UInt8.ofNat (decimalValue octet)).toNat := by
  rw [UInt8.toNat_ofNat', Nat.mod_eq_of_lt (Nat.lt_succ_of_le loose.2)]
  rfl

def shiftIn (addr octet : Nat) : Nat := ((addr <<< 8) + octet) % 2 ^ 32

theorem htonl_parts {b0 b1 b2 b3 : Byte} :
    htonl (shiftIn (shiftIn (shiftIn (shiftIn 0 b0.toNat) b1.toNat) b2.toNat) b3.toNat) =
    ⟨b0, b1, b2, b3⟩ := by
  have small0 := byte_le b0
  have small1 := byte_le b1
  have small2 := byte_le b2
  have small3 := byte_le b3
  rw [← htonl_bytes b0 b1 b2 b3]
  simp only [shiftIn, Nat.shiftLeft_eq]
  congr 1
  omega

theorem inet_dotted {o0 o1 o2 o3 : Bytes} (first : LooseOctet o0)
    (second : LooseOctet o1) (third : LooseOctet o2)
    (fourth : LooseOctet o3) : ngxInetAddr (Form.dotted [o0, o1, o2, o3]) =
      ⟨UInt8.ofNat (decimalValue o0), UInt8.ofNat (decimalValue o1), UInt8.ofNat (decimalValue o2),
        UInt8.ofNat (decimalValue o3)⟩ := by
  have shape : Form.dotted [o0, o1, o2, o3] = o0 ++ dot :: (o1 ++ dot :: (o2 ++ dot :: (o3 ++ []))) := by
    simp [Form.dotted]
  rw [shape, ngxInetAddr, read_decimal first.1 first.2, read_dot, read_decimal second.1 second.2, read_dot,
    read_decimal third.1 third.2, read_dot, read_decimal fourth.1 fourth.2, inetLoop, if_pos rfl,
    loose_byte first, loose_byte second, loose_byte third, loose_byte fourth]
  exact htonl_parts

theorem dotted_cons (c : Byte) (first : Bytes) (rest : List Bytes) :
    Form.dotted ((c :: first) :: rest) = c :: Form.dotted (first :: rest) := by
  unfold Form.dotted
  cases rest with
  | nil => simp
  | cons second rest => simp

theorem inet_taken (small : octet ≤ 255)
    (taken : inetLoop addr octet n text ≠ inaddrNone) :
    ∃ first rest, text = Form.dotted (first :: rest) ∧ n + rest.length = 3 ∧
    (∀ c ∈ first, isDigit c = true) ∧
      valueFrom octet first ≤ 255 ∧ ∀ other ∈ rest, LooseOctet other := by
  induction text generalizing addr octet n with
  | nil =>
    have isLast : n = 3 := by
      by_contra other
      rw [inetLoop, if_neg other] at taken
      exact taken rfl
    refine ⟨[], [], rfl, isLast, ?_, small, ?_⟩
    · intro c isMem
      cases isMem
    · intro other isMem
      cases isMem
  | cons c text ih =>
    rw [inetLoop] at taken
    by_cases digit : isDigit c = true
    · rw [if_pos digit] at taken
      simp only at taken
      by_cases large : octet * 10 + digitOf c > 255
      · rw [if_pos large] at taken
        cases taken rfl
      · rw [if_neg large] at taken
        obtain ⟨first, rest, isText, count, areDigits, bound, others⟩ := ih (Nat.le_of_not_gt large) taken
        refine ⟨c :: first, rest, ?_, count, ?_, bound, others⟩
        · rw [dotted_cons, isText]
        · exact forall_mem_cons.2 ⟨digit, areDigits⟩
    · rw [if_neg digit] at taken
      by_cases isDot : c = dot
      · rw [if_pos isDot] at taken
        obtain ⟨first, rest, isText, count, areDigits, bound, others⟩ := ih (Nat.zero_le _) taken
        refine ⟨[], first :: rest, ?_, ?_, ?_, small, ?_⟩
        · rw [isText, isDot]
          simp [Form.dotted]
        · rw [length_cons]
          omega
        · intro other isMem
          cases isMem
        · exact forall_mem_cons.2 ⟨⟨areDigits, bound⟩, others⟩
      · rw [if_neg isDot] at taken
        cases taken rfl

theorem inet_taken_octets (taken : ngxInetAddr text ≠ inaddrNone) :
    ∃ octets, text = Form.dotted octets ∧ octets.length = 4 ∧ ∀ octet ∈ octets, LooseOctet octet := by
  obtain ⟨first, rest, isText, count, areDigits, bound, others⟩ := inet_taken (Nat.zero_le _) taken
  refine ⟨first :: rest, isText, ?_, forall_mem_cons.2 ⟨⟨areDigits, bound⟩, others⟩⟩
  rw [length_cons]
  omega

section Fields

variable {addr : Bytes} {zero : Option Nat} {digit : Option Bytes} {n : Nat} {rest : Bytes}

def between (addr : Bytes) (zero : Option Nat) (digit : Option Bytes) (n : Nat) : Inet6 :=
  ⟨addr, zero, digit, 0, 0, n⟩

def wordFrom (start : Nat) (digits : Bytes) : Nat :=
  digits.foldl (fun value c => value * 16 + (digitValue c).getD 0) start

theorem read_hex (areHex : ∀ c ∈ digits, digitValue c ≠ none)
    (room : st.nibbles + digits.length ≤ 4) (rest : Bytes) : inet6Loop st (digits ++ rest) =
      inet6Loop { st with nibbles := st.nibbles + digits.length, word := wordFrom st.word digits } rest := by
  induction digits generalizing st with
  | nil => rfl
  | cons c digits ih =>
    have isHex := areHex c (mem_cons_self ..)
    obtain ⟨notColon, notDot⟩ := digit_plain isHex
    obtain ⟨value, isValue⟩ := Option.ne_none_iff_exists'.1 isHex
    rw [length_cons] at room
    rw [cons_append, inet6Loop, if_neg notColon, if_neg fun isDot => notDot isDot.1, if_neg (by omega),
      hex_value_eq, isValue]
    dsimp only
    rw [ih (fun other isOther => areHex other (mem_cons_of_mem _ isOther)) (by dsimp only; omega)]
    rw [length_cons, add_assoc, add_comm 1, wordFrom, wordFrom, foldl_cons, isValue]
    rfl

theorem field_cases {field : Bytes} (plain : colon ∉ field) (room : st.nibbles ≤ 4)
    (rest : Bytes) : ((∀ c ∈ field, digitValue c ≠ none) ∧ st.nibbles + field.length ≤ 4) ∨
      inet6Loop st (field ++ rest) = none ∨
      ∃ digits behind word, field = digits ++ dot :: behind ∧ (∀ c ∈ digits, digitValue c ≠ none) ∧
        st.nibbles + digits.length ≤ 4 ∧ st.nibbles + digits.length ≠ 0 ∧ inet6Loop st (field ++ rest) =
          dottedRest { st with nibbles := st.nibbles + digits.length, word := word } := by
  induction field generalizing st with
  | nil =>
    refine .inl ⟨?_, room⟩
    intro c isMem
    cases isMem
  | cons c field ih =>
    have notColon : c ≠ colon := by
      rintro rfl
      exact plain (mem_cons_self ..)
    have plainRest : colon ∉ field := fun isMem => plain (mem_cons_of_mem _ isMem)
    rw [cons_append, inet6Loop, if_neg notColon]
    by_cases isDot : c = dot ∧ st.nibbles ≠ 0
    · rw [if_pos isDot]
      refine .inr (.inr ⟨[], field, st.word, ?_, ?_, room, isDot.2, rfl⟩)
      · rw [isDot.1]
        rfl
      · intro other isMem
        cases isMem
    · rw [if_neg isDot]
      by_cases full : st.nibbles + 1 > 4
      · rw [if_pos full]
        exact .inr (.inl rfl)
      · rw [if_neg full, hex_value_eq]
        cases isValue : digitValue c with
        | none => exact .inr (.inl rfl)
        | some value =>
          have isHex : digitValue c ≠ none := by
            rw [isValue]
            exact Option.some_ne_none value
          obtain ⟨areHex, few⟩ | stops | ⟨digits, behind, word, isField, areHex, few, some_, isEnd⟩ :=
            @ih { st with nibbles := st.nibbles + 1, word := st.word * 16 + value } plainRest
              (Nat.le_of_not_gt full)
          · dsimp only at few
            refine .inl ⟨forall_mem_cons.2 ⟨isHex, areHex⟩, ?_⟩
            rw [length_cons]
            omega
          · exact .inr (.inl stops)
          · dsimp only at few some_ isEnd
            have longer : st.nibbles + (c :: digits).length = st.nibbles + 1 + digits.length := by
              rw [length_cons]
              omega
            refine .inr (.inr ⟨c :: digits, behind, word, ?_, forall_mem_cons.2 ⟨isHex, areHex⟩, ?_, ?_, ?_⟩)
            · rw [isField]
              rfl
            · rw [longer]
              exact few
            · rw [longer]
              exact some_
            · rw [longer]
              exact isEnd

theorem read_group {group : Bytes} (isGroup : IsGroup group) :
    inet6Loop (between addr zero digit n) (group ++ colon :: rest) =
      if n - 1 ≠ 0 then
        inet6Loop (between (addr ++ wordBytes (groupValue group)) zero (some rest) (n - 1)) rest
      else none := by
  obtain ⟨some_, few, areHex⟩ := isGroup
  have isWord : wordFrom 0 group = groupValue group := rfl
  have hasNibbles : (between addr zero digit n).nibbles + group.length ≠ 0 := by
    intro isZero
    exact some_ (eq_nil_of_length_eq_zero (Nat.eq_zero_of_add_eq_zero_left isZero))
  rw [read_hex areHex (by rw [between, zero_add]; exact few), inet6Loop, if_pos rfl, if_pos hasNibbles]
  dsimp only [between]
  rw [isWord]
  rfl

theorem read_gap : inet6Loop (between addr zero digit n) (colon :: rest) =
    if zero = none then inet6Loop (between addr (some addr.length) (some rest) n) rest else none := by
  rw [inet6Loop, if_pos rfl]
  exact if_neg (not_not_intro rfl)

def ended (groups : List Bytes) : Bytes := groups.flatMap (· ++ [colon])

theorem ended_cons (group : Bytes) (groups : List Bytes) (rest : Bytes) :
    ended (group :: groups) ++ rest = group ++ colon :: (ended groups ++ rest) := by
  simp [ended]

theorem group_bytes_cons (group : Bytes) (groups : List Bytes) :
    groupBytes (group :: groups) = wordBytes (groupValue group) ++ groupBytes groups := rfl

/-- `digit` behind some groups. -/
def digitAfter (digit : Option Bytes) (groups : List Bytes) (rest : Bytes) : Option Bytes :=
  if groups = [] then digit else some rest

theorem read_groups {groups : List Bytes} (areGroups : ∀ group ∈ groups, IsGroup group) (pos : 0 < n) :
    inet6Loop (between addr zero digit n) (ended groups ++ rest) =
      if groups.length < n then
        inet6Loop (between (addr ++ groupBytes groups) zero (digitAfter digit groups rest)
          (n - groups.length)) rest
      else none := by
  induction groups generalizing addr digit n with
  | nil =>
    rw [length_nil, if_pos pos, groupBytes, flatMap_nil, append_nil]
    rfl
  | cons group groups ih =>
    obtain ⟨isGroup, areGroups⟩ := forall_mem_cons.1 areGroups
    rw [ended_cons, read_group isGroup, length_cons]
    by_cases more : n - 1 ≠ 0
    · have same : digitAfter (some (ended groups ++ rest)) groups rest = some rest := by
        cases groups <;> rfl
      rw [if_pos more, ih areGroups (Nat.pos_of_ne_zero more), same, group_bytes_cons, append_assoc,
        Nat.sub_sub, add_comm 1]
      by_cases room : groups.length < n - 1
      · rw [if_pos room, if_pos (by omega)]
        rfl
      · rw [if_neg room, if_neg (by omega)]
    · rw [if_neg more, if_neg (by omega)]

end Fields

end ServerCore.NginxInet6Fields
