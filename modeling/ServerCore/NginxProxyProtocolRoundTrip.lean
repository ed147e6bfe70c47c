import ServerCore.NginxInetRoundTrip
import ServerCore.NginxProxyProtocol
import ServerCore.NginxSprintfBound

/-!
# Reading a written header back

The texts of addresses are made of bytes that the reader lets pass, none of them
a space, and they have forty bytes at most.
-/

namespace ServerCore.NginxProxyProtocolRoundTrip

open CheckedReads
open NginxHttpParse (Byte Bytes)
open NginxInet NginxInetRoundTrip NginxProxyProtocol List
open NginxSprintfBound (Conversion Formats Converts)

variable {c version : Byte} {port p fuel addr : Nat} {sockaddr localSockaddr : Sockaddr}
variable {lport buf last number : Nat} {text : Bytes}

section Texts

variable {p : Bytes} {len : Nat}

theorem number_byte_passes (isNumber : NumberByte c) : isAddressByte c = true ∧ c ≠ space := by
  have hex : ∀ value < 16, isAddressByte (hexDigit value) = true ∧ hexDigit value ≠ space := by
    decide
  rcases isNumber with isDot | ⟨value, small, same⟩
  · rw [isDot]
    decide
  · rw [same]
    exact hex value small

theorem ntop_passes (mem : c ∈ ngxInet6Ntop p len) : isAddressByte c = true ∧ c ≠ space := by
  rcases ntop_bytes mem with isColon | isNumber
  · rw [isColon]
    decide
  · exact number_byte_passes isNumber

theorem hexadecimal_length (first second : Byte) :
    (hexadecimal (first.toNat * 256 + second.toNat)).length ≤ 4 :=
  PositionalText.length_numeral (by decide) (lt_of_le_of_lt (word_le first second) (by decide))

theorem print_words_length (p : Bytes) (zero : Option Nat) (max n turns i : Nat) :
    (printWords p zero max n turns i).length ≤ 5 * ((n + 1 - i) / 2) := by
  induction turns generalizing i with
  | zero => exact Nat.zero_le _
  | succ turns ih =>
    have short := hexadecimal_length (p.getD i 0) (p.getD (i + 1) 0)
    rw [printWords]
    split_ifs
    · have later := ih (i + (max - 1) * 2 + 2)
      rw [length_cons]
      omega
    · have later := ih (i + 2)
      rw [length_append, length_append, length_singleton]
      omega
    · have later := ih (i + 2)
      rw [length_append, append_nil]
      omega
    · exact Nat.zero_le _

theorem dotted_length (b0 b1 b2 b3 : Byte) : (dotted b0 b1 b2 b3).length ≤ 15 := by
  have short0 := decimal_length b0
  have short1 := decimal_length b1
  have short2 := decimal_length b2
  have short3 := decimal_length b3
  simp only [dotted, length_append, length_cons]
  omega

theorem ntop_length (room : ngxInet6Addrstrlen ≤ len) : (ngxInet6Ntop p len).length ≤ 40 := by
  have found := (find_run_found p).1
  by_cases isDotted : DottedForm p
  · have words := print_words_length p (some 0) (findRun p).max 12 7 (2 * (findRun p).max)
    have last := dotted_length (p.getD 12 0) (p.getD 13 0) (p.getD 14 0) (p.getD 15 0)
    have long : 5 ≤ (findRun p).max := by
      rcases isDotted.2 with ⟨five, -⟩ | six | ⟨seven, -⟩ <;> omega
    rw [dotted_text room isDotted, length_cons, length_cons, length_append]
    omega
  · rw [ntop_eq room, if_neg isDotted]
    by_cases atStart : (findRun p).zero = some 0
    · have words := print_words_length p (some 0) (findRun p).max 16 7 (0 + ((findRun p).max - 1) * 2 + 2)
      rw [if_pos atStart, atStart, printWords, if_pos (by decide), if_pos rfl, length_append,
        length_singleton, length_cons]
      omega
    · have words := print_words_length p (findRun p).zero (findRun p).max 16 8 0
      rw [if_neg atStart, nil_append]
      exact words

inductive SameFamily : Sockaddr → Sockaddr → Prop
  | inet (addr localAddr : InAddr) (port lport : Nat) (small : port ≤ 65535) (localSmall : lport ≤ 65535) :
      SameFamily (.inet addr port) (.inet localAddr lport)
  | inet6 (addr localAddr : In6Addr) (port lport : Nat) (small : port ≤ 65535) (localSmall : lport ≤ 65535) :
      SameFamily (.inet6 addr port) (.inet6 localAddr lport)

def addressText (sa : Sockaddr) : Bytes := ngxSockNtop sa ngxSockaddrStrlen false

theorem inet_text {addr : InAddr} (room : ngxInet6Addrstrlen ≤ len) :
    ngxSockNtop (.inet addr port) len false = dotted addr.b0 addr.b1 addr.b2 addr.b3 := by
  have short := dotted_length addr.b0 addr.b1 addr.b2 addr.b3
  have enough : 45 ≤ len := le_trans (by decide) room
  exact take_of_length_le (by omega)

theorem inet6_text {addr : In6Addr} (room : ngxInet6Addrstrlen ≤ len) :
    ngxSockNtop (.inet6 addr port) len false = ngxInet6Ntop addr.val ngxInet6Addrstrlen := by
  change ngxInet6Ntop addr.val len = _
  rw [ntop_eq room, ntop_eq le_rfl]

def FieldText (sa : Sockaddr) : Prop :=
  (∀ len, ngxInet6Addrstrlen ≤ len → ngxSockNtop sa len false = addressText sa) ∧
  (addressText sa).length ≤ 40 ∧
    ∀ c ∈ addressText sa, isAddressByte c = true ∧ c ≠ space

theorem inet_field_text (addr : InAddr) (port : Nat) : FieldText (.inet addr port) := by
  have isText : addressText (.inet addr port) = dotted addr.b0 addr.b1 addr.b2 addr.b3 :=
    inet_text (by decide)
  have short := dotted_length addr.b0 addr.b1 addr.b2 addr.b3
  unfold FieldText
  rw [isText]
  exact ⟨fun len room => inet_text room, by omega, fun c mem => number_byte_passes (dotted_bytes mem)⟩

theorem inet6_field_text (addr : In6Addr) (port : Nat) : FieldText (.inet6 addr port) := by
  have isText : addressText (.inet6 addr port) = ngxInet6Ntop addr.val ngxInet6Addrstrlen :=
    inet6_text (by decide)
  unfold FieldText
  rw [isText]
  exact ⟨fun len room => inet6_text room, ntop_length le_rfl, fun c mem => ntop_passes mem⟩

end Texts

/-- `%ui`. -/
def portConversion : Conversion where
  digits := []
  flags := [.u]
  point := none
  letter := 'i'.toUInt8
  digits_plain := NginxSprintfBound.nothing_plain
  point_plain := NginxSprintfBound.nothing_plain
  letter_ends := by decide
  letter_inside := by decide

theorem converts_port (small : port ≤ 65535) :
    Converts portConversion.spec portConversion.letter [.integer port] (decimal port) := by
  have isNumber : Converts portConversion.spec portConversion.letter [.integer port] _ :=
    Converts.number portConversion.letter (portConversion.spec.eitherNumber 64) port (by decide) rfl
  have value : NginxSprintf.unsignedType 64 (port : Nat) = port := by
    unfold NginxSprintf.unsignedType
    omega
  have isText : NginxSprintfBound.numberText (portConversion.spec.eitherNumber 64 (port : Nat)) =
      decimal port := by
    change NginxSprintfBound.numText (NginxSprintf.unsignedType 64 (port : Nat)) ' '.toUInt8 0 0 = _
    rw [value, NginxSprintfBound.numText, Nat.zero_sub]
    rfl
  rw [isText] at isNumber
  exact isNumber

def portsText (port lport : Nat) : Bytes :=
  [space] ++ (decimal port ++ ([space] ++ (decimal lport ++ ([carriageReturn, lineFeed] ++ []))))

theorem formats_ports (small : port ≤ 65535) (localSmall : lport ≤ 65535) :
    Formats portsFormat [.integer port, .integer lport] (portsText port lport) := by
  have isFormat : portsFormat = [space] ++ ('%'.toUInt8 :: (portConversion.bytes ++ ([space] ++
      ('%'.toUInt8 :: (portConversion.bytes ++ ([carriageReturn, lineFeed] ++ [0])))))) := by
    decide +kernel
  have plainSpace : ∀ c ∈ [space], c ≠ 0 ∧ c ≠ '%'.toUInt8 := by decide +kernel
  have plainEnd : ∀ c ∈ [carriageReturn, lineFeed], c ≠ 0 ∧ c ≠ '%'.toUInt8 := by decide +kernel
  rw [isFormat]
  apply NginxSprintfBound.formats_plain plainSpace
  apply Formats.conversion portConversion (converts_port small)
  apply NginxSprintfBound.formats_plain plainSpace
  apply Formats.conversion portConversion (converts_port localSmall)
  apply NginxSprintfBound.formats_plain plainEnd
  exact Formats.stop [] []

theorem ports_length (small : port ≤ 65535) (localSmall : lport ≤ 65535) :
    (portsText port lport).length ≤ 14 := by
  have short : (decimal port).length ≤ 5 :=
    PositionalText.length_numeral (by decide) (lt_of_le_of_lt small (by decide))
  have localShort : (decimal lport).length ≤ 5 :=
    PositionalText.length_numeral (by decide) (lt_of_le_of_lt localSmall (by decide))
  simp only [portsText, length_append, length_cons, length_nil]
  omega

def headerText (version : Byte) (sockaddr localSockaddr : Sockaddr) : Bytes :=
  textBytes "PROXY TCP" ++
    ([version, space] ++ (addressText sockaddr ++ ([space] ++ (addressText localSockaddr ++
    portsText (ngxInetGetPort sockaddr) (ngxInetGetPort localSockaddr)))))

theorem write_addresses_text (isField : FieldText sockaddr) (isLocal : FieldText localSockaddr)
    (small : ngxInetGetPort sockaddr ≤ 65535) (localSmall : ngxInetGetPort localSockaddr ≤ 65535)
    {name : String} (isName : textBytes name = textBytes "PROXY TCP" ++ [version, space])
    (room : ngxProxyProtocolMaxHeader ≤ last - buf) :
    writeAddresses sockaddr localSockaddr name buf last = some (headerText version sockaddr localSockaddr,
        buf + (headerText version sockaddr localSockaddr).length) ∧
      (headerText version sockaddr localSockaddr).length ≤ ngxProxyProtocolMaxHeader := by
  obtain ⟨sameText, short, -⟩ := isField
  obtain ⟨sameLocal, localShort, -⟩ := isLocal
  have portsShort := ports_length small localSmall
  have nameLength : (textBytes name).length = 11 := by
    rw [isName]
    rfl
  have strlen : ngxInet6Addrstrlen = 45 := by decide
  have most : ngxProxyProtocolMaxHeader = 107 := rfl
  have split : headerText version sockaddr localSockaddr =
      (textBytes name ++ addressText sockaddr ++ [space] ++ addressText localSockaddr) ++
        portsText (ngxInetGetPort sockaddr) (ngxInetGetPort localSockaddr) := by
    rw [isName, headerText]
    simp only [append_assoc]
  unfold writeAddresses
  dsimp only
  rw [sameText _ (by omega), sameLocal _ (by simp only [length_append, length_singleton]; omega),
    NginxSprintfBound.vslprintf_truncates (formats_ports small localSmall)]
  have enough : (portsText (ngxInetGetPort sockaddr) (ngxInetGetPort localSockaddr)).length ≤
      last - (buf + (textBytes name ++ addressText sockaddr ++ [space] ++
        addressText localSockaddr).length) := by
    simp only [length_append, length_singleton]
    omega
  rw [take_of_length_le enough, min_eq_left enough, split]
  constructor
  · simp only [Option.map_some, length_append, add_assoc]
  · simp only [length_append, length_singleton]
    omega

section Reading

variable {input : Bytes}

theorem strncmp_same (front text rest : Bytes) (isPos : p = front.length) :
    ngxStrncmp (front ++ (text ++ rest)) p text = .ok true := by
  induction text generalizing front p with
  | nil => rfl
  | cons c text ih =>
    have next := ih (front ++ [c]) (p := p + 1) (by rw [isPos, length_append, length_singleton])
    rw [append_assoc, singleton_append] at next
    rw [ngxStrncmp, cons_append, read_front front c _ isPos, bind_ok, if_pos rfl]
    exact next

theorem strncmp_other (front : Bytes) {d : Byte} (differ : c ≠ d) (text rest : Bytes)
    (isPos : p = front.length) : ngxStrncmp (front ++ c :: rest) p (d :: text) = .ok false := by
  rw [ngxStrncmp, read_front front c _ isPos, bind_ok, if_neg differ]

theorem read_protocol_tcp (isVersion : version = '4'.toUInt8 ∨ version = '6'.toUInt8)
    (rest : Bytes) : readProtocol (textBytes "PROXY TCP" ++ ([version, space] ++ rest)) = .ok (.tcp 11) := by
  let buf := textBytes "PROXY TCP" ++ ([version, space] ++ rest)
  have size : buf.length = rest.length + 11 := by
    unfold buf
    rw [length_append, length_append]
    change 9 + (2 + rest.length) = _
    omega
  have known : ¬(version ≠ '4'.toUInt8 ∧ version ≠ '6'.toUInt8) := by
    rintro ⟨notFour, notSix⟩
    exact isVersion.elim notFour notSix
  have isProxy : ngxStrncmp buf 0 (textBytes "PROXY ") = .ok true :=
    strncmp_same [] (textBytes "PROXY ") (textBytes "TCP" ++ ([version, space] ++ rest)) rfl
  have notUnknown (len : Nat) : unknownProtocol buf 6 len = .ok false := by
    have differ : ngxStrncmp buf 6 (textBytes "UNKNOWN") = .ok false :=
      strncmp_other (textBytes "PROXY ") (by decide) (textBytes "NKNOWN") _ rfl
    rw [unknownProtocol, differ, ite_self]
  have isTcp : ngxStrncmp buf 6 (textBytes "TCP") = .ok true :=
    strncmp_same (textBytes "PROXY ") (textBytes "TCP") ([version, space] ++ rest) rfl
  have versionAt : (readAt buf 9 : Step Byte) = .ok version :=
    read_front (textBytes "PROXY TCP") version ([space] ++ rest) rfl
  have spaceAt : (readAt buf 10 : Step Byte) = .ok space :=
    read_front (textBytes "PROXY TCP" ++ [version]) space rest rfl
  change readProtocol buf = _
  unfold readProtocol
  dsimp only
  rw [size, if_neg (by omega), isProxy, bind_ok, if_neg (by simp)]
  rw [notUnknown, bind_ok, if_neg (by simp), if_neg (by omega), isTcp, bind_ok,
    if_neg (by simp), versionAt, bind_ok,
    if_neg known, spaceAt, bind_ok, if_neg (by simp)]
  rfl

theorem field_loop_front (passes : Byte → Bool) (front : Bytes) {field : Bytes}
    (plain : ∀ c ∈ field, passes c = true ∧ c ≠ space) (rest : Bytes)
    (isPos : p = front.length) (enough : field.length < fuel) :
    fieldLoop passes (front ++ (field ++ ([space] ++ rest))) fuel p = .ok (p + field.length + 1) := by
  induction field generalizing front p fuel with
  | nil =>
    cases fuel with
    | zero => cases enough
    | succ fuel =>
      have inside : p ≠ (front ++ ([] ++ ([space] ++ rest))).length := by
        simp only [length_append, length_singleton]
        omega
      rw [fieldLoop, if_neg inside, nil_append, singleton_append, read_front front space rest isPos,
        bind_ok]
      exact if_pos rfl
  | cons c field ih =>
    cases fuel with
    | zero => cases enough
    | succ fuel =>
      obtain ⟨passed, notSpace⟩ := plain c mem_cons_self
      have inside : p ≠ (front ++ (c :: field ++ ([space] ++ rest))).length := by
        simp only [length_append, length_cons]
        omega
      have next := ih (front ++ [c]) (fun d mem => plain d (mem_cons_of_mem c mem)) (p := p + 1)
        (by rw [isPos, length_append, length_singleton])
        (Nat.lt_of_succ_lt_succ enough)
      rw [append_assoc, singleton_append] at next
      rw [fieldLoop, if_neg inside, cons_append, read_front front c _ isPos, bind_ok]
      rw [if_neg notSpace, if_pos passed, next, length_cons]
      congr 1
      omega

theorem skip_loop_front (front : Bytes) (plain : ∀ c ∈ text, c ≠ carriageReturn)
    (rest : Bytes) (isPos : p = front.length) (enough : text.length < fuel) :
    skipLoop (front ++ (text ++ (carriageReturn :: lineFeed :: rest))) fuel p =
    .ok (p + text.length + 2) := by
  induction text generalizing front p fuel with
  | nil =>
    cases fuel with
    | zero => cases enough
    | succ fuel =>
      have inside : p + 1 < (front ++ ([] ++ (carriageReturn :: lineFeed :: rest))).length := by
        simp only [length_append, length_cons]
        omega
      have second : (readAt (front ++ [carriageReturn] ++ lineFeed :: rest) (p + 1) : Step Byte) =
          .ok lineFeed :=
        read_front _ lineFeed rest (by rw [isPos, length_append, length_singleton])
      rw [append_assoc, singleton_append] at second
      rw [skipLoop, if_pos inside, nil_append, read_front front carriageReturn _ isPos, bind_ok,
        if_pos rfl, second, bind_ok]
      exact if_pos rfl
  | cons c text ih =>
    cases fuel with
    | zero => cases enough
    | succ fuel =>
      have inside : p + 1 < (front ++ (c :: text ++ (carriageReturn :: lineFeed :: rest))).length := by
        simp only [length_append, length_cons]
        omega
      have next := ih (front ++ [c]) (fun d mem => plain d (mem_cons_of_mem c mem)) (p := p + 1)
        (by rw [isPos, length_append, length_singleton])
        (Nat.lt_of_succ_lt_succ enough)
      rw [append_assoc, singleton_append] at next
      rw [skipLoop, if_pos inside, cons_append, read_front front c _ isPos, bind_ok,
        if_neg (plain c mem_cons_self), next, length_cons]
      congr 1
      omega

theorem decimal_plain {ch : Byte} (mem : ch ∈ decimal number) : ch ≠ space ∧ ch ≠ carriageReturn := by
  have digit : ∀ value < 10, decimalDigit value ≠ space ∧ decimalDigit value ≠ carriageReturn := by decide
  obtain ⟨value, isDigit, same⟩ := decimal_digits number ch mem
  rw [same]
  exact digit value isDigit

variable {front rest : Bytes}

theorem read_address_front {address : Bytes} (isInput : input = front ++ (address ++ ([space] ++ rest)))
    (plain : ∀ c ∈ address, isAddressByte c = true ∧ c ≠ space) (isPos : addr = front.length) :
    readAddress input addr = .ok (address, addr + address.length + 1) := by
  have taken : addr + address.length + 1 - addr - 1 = address.length := by omega
  rw [readAddress, isInput, field_loop_front _ front plain rest isPos
    (by simp only [length_append]; omega), bind_ok, taken, read_many_front front address _ isPos rfl]
  rfl

theorem read_port_front {own : Bytes}
    (isInput : input = front ++ (own ++ ([space] ++ (decimal port ++ ([space] ++ rest)))))
    (plain : ∀ c ∈ own, c ≠ space) (small : port ≤ 65535) (isPos : p = front.length) :
    readPort input p = .ok (port, p + own.length + 1 + (decimal port).length + 1) := by
  have isPort : p + own.length + 1 = (front ++ (own ++ [space])).length := by
    rw [length_append, length_append, length_singleton, isPos, add_assoc]
  have taken : p + own.length + 1 + (decimal port).length + 1 - (p + own.length + 1) - 1 =
      (decimal port).length := by
    omega
  have cut : front ++ (own ++ ([space] ++ (decimal port ++ ([space] ++ rest)))) =
      (front ++ (own ++ [space])) ++ (decimal port ++ ([space] ++ rest)) := by
    simp only [append_assoc]
  rw [readPort, isInput, field_loop_front _ front (fun c mem => ⟨rfl, plain c mem⟩) _ isPos
    (by simp only [length_append]; omega), bind_ok, cut,
    field_loop_front _ _ (fun c mem => ⟨rfl, (decimal_plain mem).1⟩) rest isPort
      (by simp only [length_append]; omega), bind_ok, taken, read_many_front _ _ _ isPort rfl, bind_ok,
    port_read_back small]
  exact if_neg (by omega)

theorem skip_front (isInput : input = front ++ (decimal number ++ (carriageReturn :: lineFeed :: rest)))
    (isPos : p = front.length) : skip input p = .ok (p + (decimal number).length + 2) := by
  rw [skip, isInput]
  exact skip_loop_front front (fun ch mem => (decimal_plain mem).2) rest isPos
    (by simp only [length_append]; omega)

theorem read_written (isVersion : version = '4'.toUInt8 ∨ version = '6'.toUInt8)
    (isField : FieldText sockaddr) (isLocal : FieldText localSockaddr)
    (small : ngxInetGetPort sockaddr ≤ 65535) (rest : Bytes) (c : Connection) :
    ngxProxyProtocolRead true c (headerText version sockaddr localSockaddr ++ rest) =
      .ok ⟨some (headerText version sockaddr localSockaddr).length,
        ⟨addressText sockaddr, ngxInetGetPort sockaddr⟩, none⟩ := by
  have plain := isField.2.2
  have localPlain : ∀ c ∈ addressText localSockaddr, c ≠ space := fun c mem => (isLocal.2.2 c mem).2
  generalize isInput : headerText version sockaddr localSockaddr ++ rest = input
  rw [headerText, portsText] at isInput
  have atProtocol : input = textBytes "PROXY TCP" ++
      ([version, space] ++ (addressText sockaddr ++ ([space] ++
      (addressText localSockaddr ++ ([space] ++ (decimal (ngxInetGetPort sockaddr) ++ ([space] ++
        (decimal (ngxInetGetPort localSockaddr) ++ (carriageReturn :: lineFeed :: rest))))))))) := by
    rw [← isInput]
    simp
  have protocol : readProtocol input = .ok (.tcp 11) := by
    rw [atProtocol]
    exact read_protocol_tcp isVersion _
  have nameLength : (textBytes "PROXY TCP" ++ [version, space]).length = 11 := rfl
  have address := read_address_front atProtocol plain nameLength.symm
  have atOwn : input = (textBytes "PROXY TCP" ++ [version, space] ++ (addressText sockaddr ++ [space])) ++
      (addressText localSockaddr ++ ([space] ++ (decimal (ngxInetGetPort sockaddr) ++ ([space] ++
        (decimal (ngxInetGetPort localSockaddr) ++ (carriageReturn :: lineFeed :: rest)))))) := by
    rw [atProtocol]
    simp only [append_assoc]
  have port := read_port_front (p := 11 + (addressText sockaddr).length + 1) atOwn localPlain small (by
    rw [length_append, nameLength, length_append, length_singleton, add_assoc])
  have atEnd : input = (textBytes "PROXY TCP" ++ [version, space] ++ (addressText sockaddr ++ [space]) ++
      (addressText localSockaddr ++ [space] ++ (decimal (ngxInetGetPort sockaddr) ++ [space]))) ++
        (decimal (ngxInetGetPort localSockaddr) ++ (carriageReturn :: lineFeed :: rest)) := by
    rw [atOwn]
    simp only [append_assoc]
  have lineEnd := skip_front
    (p := 11 + (addressText sockaddr).length + 1 + (addressText localSockaddr).length + 1 +
      (decimal (ngxInetGetPort sockaddr)).length + 1) atEnd (by
    simp only [length_append, length_singleton, nameLength]
    omega)
  have size : (headerText version sockaddr localSockaddr).length = 11 + (addressText sockaddr).length + 1 +
      (addressText localSockaddr).length + 1 + (decimal (ngxInetGetPort sockaddr)).length + 1 +
        (decimal (ngxInetGetPort localSockaddr)).length + 2 := by
    rw [headerText, ← append_assoc, length_append, nameLength]
    simp only [portsText, length_append, length_cons, length_nil]
    omega
  unfold ngxProxyProtocolRead
  rw [protocol]
  change orInvalid input c (readAddress input 11) _ = _
  rw [address]
  change orInvalid input _ (readPort input _) _ = _
  rw [port]
  change orInvalid input _ (skip input _) _ = _
  rw [lineEnd, size]
  rfl

end Reading

section Safety

variable {input : Bytes}

theorem strncmp_checked (inside : p + text.length ≤ input.length) :
    Checked (fun _ => True) (ngxStrncmp input p text) := by
  induction text generalizing p with
  | nil => exact trivial
  | cons c text ih =>
    rw [length_cons] at inside
    rw [ngxStrncmp]
    apply checked_bind (checked_read (by omega))
    intro ch _
    by_cases same : ch = c
    · rw [if_pos same]
      exact ih (by omega)
    · rw [if_neg same]
      exact trivial

theorem unknown_protocol_checked {len : Nat} (inside : p + len ≤ input.length) :
    Checked (fun isUnknown => isUnknown = true → 7 ≤ len) (unknownProtocol input p len) := by
  have size : (textBytes "UNKNOWN").length = 7 := rfl
  unfold unknownProtocol
  by_cases long : len ≥ 7
  · rw [if_pos long]
    exact checked_weaken (strncmp_checked (by omega)) fun _ _ _ => long
  · rw [if_neg long]
    exact checked_ok fun isTrue => absurd isTrue (by decide)

def Protocol.Inside (input : Bytes) : Protocol → Prop
  | .unknown p => p ≤ input.length
  | .tcp p => p ≤ input.length

theorem read_protocol_checked : Checked (Protocol.Inside input) (readProtocol input) := by
  have proxySize : (textBytes "PROXY ").length = 6 := rfl
  have tcpSize : (textBytes "TCP").length = 3 := rfl
  unfold readProtocol
  by_cases short : input.length < 8
  · rw [if_pos short]
    exact trivial
  rw [if_neg short]
  apply checked_bind (strncmp_checked (by omega))
  intro isProxy _
  split
  · exact trivial
  apply checked_bind (unknown_protocol_checked (by omega))
  intro isUnknown long
  by_cases unknown : isUnknown = true
  · have enough := long unknown
    rw [if_pos unknown]
    exact show 6 + 7 ≤ input.length by omega
  rw [if_neg unknown]
  by_cases few : input.length - 6 < 5
  · rw [if_pos few]
    exact trivial
  rw [if_neg few]
  apply checked_bind (strncmp_checked (by omega))
  intro isTcp _
  split
  · exact trivial
  apply checked_bind (checked_read (by omega))
  intro version _
  split
  · exact trivial
  apply checked_bind (checked_read (by omega))
  intro behind _
  split
  · exact trivial
  · exact show 6 + 5 ≤ input.length by omega

theorem field_loop_checked (passes : Byte → Bool) (inside : p ≤ input.length)
    (enough : input.length < fuel + p) :
    Checked (fun behind => p < behind ∧ behind ≤ input.length) (fieldLoop passes input fuel p) := by
  induction fuel generalizing p with
  | zero => omega
  | succ fuel ih =>
    rw [fieldLoop]
    split_ifs with atEnd
    · exact trivial
    apply checked_bind (checked_read (by omega))
    intro ch _
    split_ifs
    · exact ⟨Nat.lt_succ_self p, by omega⟩
    · apply checked_weaken (ih (by omega) (by omega))
      intro behind ⟨later, stays⟩
      exact ⟨by omega, stays⟩
    · exact trivial

theorem read_address_checked (inside : addr ≤ input.length) :
    Checked (fun answer => answer.2 ≤ input.length) (readAddress input addr) := by
  apply checked_bind (field_loop_checked isAddressByte inside (by omega))
  intro p ⟨later, stays⟩
  apply checked_bind (checked_read_many (by omega))
  intro text _
  exact stays

theorem read_port_checked (inside : p ≤ input.length) :
    Checked (fun answer => answer.2 ≤ input.length) (readPort input p) := by
  apply checked_bind (field_loop_checked _ inside (by omega))
  intro port ⟨_, portStays⟩
  apply checked_bind (field_loop_checked _ portStays (by omega))
  intro p ⟨later, stays⟩
  apply checked_bind (checked_read_many (by omega))
  intro line _
  cases ngxAtoi line with
  | none => exact trivial
  | some n =>
    dsimp only
    split_ifs
    · exact trivial
    · exact stays

theorem skip_loop_checked (inside : p ≤ input.length) (enough : input.length < fuel + p) :
    Checked (fun _ => True) (skipLoop input fuel p) := by
  induction fuel generalizing p with
  | zero => omega
  | succ fuel ih =>
    have further (room : p + 1 < input.length) : Checked (fun _ => True) (skipLoop input fuel (p + 1)) :=
      ih (by omega) (by omega)
    rw [skipLoop]
    split_ifs with room
    · apply checked_bind (checked_read (by omega))
      intro first _
      split_ifs
      · apply checked_bind (checked_read room)
        intro second _
        split_ifs
        · exact trivial
        · exact further room
      · exact further room
    · exact trivial

theorem or_invalid_ends {Value : Type} {post : Value → Prop} {c : Connection} {step : Step Value}
    {next : Value → Except (Stop Empty) Answer} (checked : Checked post step)
    (ends : ∀ value, post value → ∃ answer, next value = .ok answer) :
    ∃ answer, orInvalid input c step next = .ok answer := by
  rcases checked_cases checked with ⟨value, isValue, holds⟩ | ⟨reason, isRefused⟩
  · rw [isValue]
    exact ends value holds
  · rw [isRefused]
    exact ⟨_, rfl⟩

theorem skip_ends (inside : p ≤ input.length) (c : Connection) :
    ∃ answer, (orInvalid input c (skip input p) fun p => .ok ⟨some p, c, none⟩) = .ok answer :=
  or_invalid_ends (skip_loop_checked inside (by omega)) fun p _ => ⟨⟨some p, c, none⟩, rfl⟩

theorem read_ends (alloc : Bool) (c : Connection) (input : Bytes) :
    ∃ answer, ngxProxyProtocolRead alloc c input = .ok answer := by
  apply or_invalid_ends read_protocol_checked
  intro protocol inside
  cases protocol with
  | unknown p => exact skip_ends inside c
  | tcp p =>
    apply or_invalid_ends (read_address_checked inside)
    intro (text, p) inside
    cases alloc with
    | false => exact ⟨_, rfl⟩
    | true =>
      apply or_invalid_ends (read_port_checked inside)
      intro (n, p) inside
      exact skip_ends inside _

end Safety

theorem same_family_field (same : SameFamily sockaddr localSockaddr) :
    FieldText sockaddr ∧ FieldText localSockaddr ∧ ngxInetGetPort sockaddr ≤ 65535 ∧
      ngxInetGetPort localSockaddr ≤ 65535 := by
  cases same with
  | inet addr localAddr port lport small localSmall =>
    exact ⟨inet_field_text addr port, inet_field_text localAddr lport, small, localSmall⟩
  | inet6 addr localAddr port lport small localSmall =>
    exact ⟨inet6_field_text addr port, inet6_field_text localAddr lport, small, localSmall⟩

theorem write_text (same : SameFamily sockaddr localSockaddr)
    (room : ngxProxyProtocolMaxHeader ≤ last - buf) :
    ∃ version, (version = '4'.toUInt8 ∨ version = '6'.toUInt8) ∧
      ngxProxyProtocolWrite sockaddr (some localSockaddr) buf last =
        some (headerText version sockaddr localSockaddr,
          buf + (headerText version sockaddr localSockaddr).length) ∧
      (headerText version sockaddr localSockaddr).length ≤ ngxProxyProtocolMaxHeader := by
  obtain ⟨isField, isLocal, small, localSmall⟩ := same_family_field same
  have isFour : textBytes "PROXY TCP4 " = textBytes "PROXY TCP" ++ ['4'.toUInt8, space] := by decide
  have isSix : textBytes "PROXY TCP6 " = textBytes "PROXY TCP" ++ ['6'.toUInt8, space] := by decide
  unfold ngxProxyProtocolWrite
  rw [if_neg (not_lt.mpr room)]
  cases same with
  | inet addr localAddr port lport =>
    exact ⟨'4'.toUInt8, .inl rfl, write_addresses_text isField isLocal small localSmall isFour room⟩
  | inet6 addr localAddr port lport =>
    exact ⟨'6'.toUInt8, .inr rfl, write_addresses_text isField isLocal small localSmall isSix room⟩

/-- A written header fits, and is read back whatever follows it; and every input is read
inside its bounds. -/
theorem header_read_back : (∀ sockaddr localSockaddr, SameFamily sockaddr localSockaddr → ∀ buf last,
      ngxProxyProtocolMaxHeader ≤ last - buf →
        ∃ header front, ngxProxyProtocolWrite sockaddr (some localSockaddr) buf last =
            some (header, buf + header.length) ∧
          header = front ++ [carriageReturn, lineFeed] ∧ header.length ≤ ngxProxyProtocolMaxHeader ∧
          ∀ rest c, ngxProxyProtocolRead true c (header ++ rest) =
            .ok ⟨some header.length, ⟨addressText sockaddr, ngxInetGetPort sockaddr⟩, none⟩) ∧
      ∀ alloc c input, ∃ answer, ngxProxyProtocolRead alloc c input = .ok answer := by
  constructor
  · intro sockaddr localSockaddr same buf last room
    obtain ⟨isField, isLocal, small, -⟩ := same_family_field same
    obtain ⟨version, isVersion, written, fits⟩ := write_text same room
    have ends : headerText version sockaddr localSockaddr = (textBytes "PROXY TCP" ++ ([version, space] ++
        (addressText sockaddr ++ ([space] ++ (addressText localSockaddr ++ ([space] ++
          (decimal (ngxInetGetPort sockaddr) ++ ([space] ++ decimal (ngxInetGetPort localSockaddr))))))))) ++
        [carriageReturn, lineFeed] := by
      simp [headerText, portsText]
    exact ⟨_, _, written, ends, fits, read_written isVersion isField isLocal small⟩
  · exact read_ends

theorem header_read_back_loopback :
    ∃ header, ngxProxyProtocolWrite (.inet ⟨127, 0, 0, 1⟩ 40000) (some (.inet ⟨10, 0, 0, 1⟩ 80)) 0 107 =
        some (header, header.length) ∧ ngxProxyProtocolRead true ⟨[], 0⟩ (header ++ textBytes "GET /") =
        .ok ⟨some header.length, ⟨textBytes "127.0.0.1", 40000⟩, none⟩ := by
  obtain ⟨header, -, written, -, -, back⟩ :=
    header_read_back.1 _ _
      (.inet ⟨127, 0, 0, 1⟩ ⟨10, 0, 0, 1⟩ 40000 80 (by decide) (by decide)) 0 107 (by decide)
  rw [zero_add] at written
  exact ⟨header, written, back (textBytes "GET /") ⟨[], 0⟩⟩

end ServerCore.NginxProxyProtocolRoundTrip
