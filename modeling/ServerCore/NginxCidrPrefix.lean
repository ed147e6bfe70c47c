import Mathlib.Data.List.TakeWhile
import ServerCore.BitString
import ServerCore.NginxCidr
import ServerCore.NginxInetRoundTrip

/-!
# A block of addresses is a prefix

What `ngx_ptocidr` stores is the first bits of the address that is written and a
mask of as many ones, and `ngx_cidr_match` compares these bits.
-/

namespace ServerCore.NginxCidrPrefix

open NginxHttpParse (Byte Bytes)
open BitString NginxInet
open NginxInetRoundTrip (htonl_bytes)
open NginxCidr List

variable {length : Nat}

variable {left right bytes mask : Bytes} {shift : Nat}

def byteBits (byte : Byte) : List Bool := ofNat byte.toNat 8

def bits (bytes : Bytes) : List Bool := bytes.flatMap byteBits

def inetBytes (addr : InAddr) : Bytes := [addr.b0, addr.b1, addr.b2, addr.b3]

inductive Family where
  | afInet
  | afInet6

def Family.width : Family → Nat
  | .afInet => 32
  | .afInet6 => 128

abbrev Address : Type := Family × List Bool

def inetAddress (addr : InAddr) : Address := (.afInet, bits (inetBytes addr))

def inet6Address (addr : In6Addr) : Address := (.afInet6, bits addr.val)

def cidrAddress : Cidr → Option Address
  | .inet addr _ => some (inetAddress addr)
  | .inet6 addr _ => some (inet6Address addr)
  | .unix => none

def cidrMask : Cidr → Option Address
  | .inet _ mask => some (inetAddress mask)
  | .inet6 _ mask => some (inet6Address mask)
  | .unix => none

def masked : Cidr → Cidr
  | .inet addr mask => .inet (InAddr.land addr mask) mask
  | .inet6 addr mask => .inet6 (In6Addr.land addr mask) mask
  | .unix => .unix

/-- What a peer has for an address: an IPv6 address that holds one of IPv4 is that one. -/
def peerAddress : Sockaddr → Option Address
  | .inet addr _ => some (inetAddress addr)
  | .inet6 addr _ =>
    if addr.val.take 12 = List.replicate 10 0 ++ [0xff, 0xff] then some (.afInet, bits (addr.val.drop 12))
    else some (inet6Address addr)
  | .unix _ => none
  | .other => none

theorem byte_bits_length (byte : Byte) : (byteBits byte).length = 8 := of_nat_length _ _

theorem bits_length (bytes : Bytes) : (bits bytes).length = 8 * bytes.length := by
  induction bytes with
  | nil => rfl
  | cons byte bytes ih =>
    have isBits : bits (byte :: bytes) = byteBits byte ++ bits bytes := rfl
    rw [isBits, length_append, byte_bits_length, ih, length_cons]
    omega

theorem byte_bits_injective {left right : Byte} (same : byteBits left = byteBits right) : left = right :=
  UInt8.toNat_inj.1 (of_nat_injective left.toNat_lt right.toNat_lt same)

theorem bits_injective (sameLen : left.length = right.length)
    (same : bits left = bits right) : left = right := by
  induction left generalizing right with
  | nil => exact (length_eq_zero_iff.1 sameLen.symm).symm
  | cons first left ih =>
    cases right with
    | nil => exact absurd sameLen (Nat.succ_ne_zero _)
    | cons second right =>
      have parts : byteBits first ++ bits left = byteBits second ++ bits right := same
      obtain ⟨heads, tails⟩ := append_inj parts ((byte_bits_length _).trans (byte_bits_length _).symm)
      rw [byte_bits_injective heads, ih (Nat.succ.inj sameLen) tails]

theorem bits_and (sameLen : left.length = right.length) :
    bits (List.zipWith (· &&& ·) left right) = List.zipWith (· && ·) (bits left) (bits right) := by
  induction left generalizing right with
  | nil => rfl
  | cons first left ih =>
    cases right with
    | nil => exact absurd sameLen (Nat.succ_ne_zero _)
    | cons second right =>
      have isAnd : byteBits (first &&& second) =
          List.zipWith (· && ·) (byteBits first) (byteBits second) := by
        unfold byteBits
        rw [UInt8.toNat_and]
        exact of_nat_and _ _ _
      have lengths : (byteBits first).length = (byteBits second).length :=
        (byte_bits_length _).trans (byte_bits_length _).symm
      have isLeft : bits (first :: left) = byteBits first ++ bits left := rfl
      have isRight : bits (second :: right) = byteBits second ++ bits right := rfl
      have isZip : bits (List.zipWith (· &&& ·) (first :: left) (second :: right)) =
          byteBits (first &&& second) ++ bits (List.zipWith (· &&& ·) left right) := rfl
      rw [isZip, isLeft, isRight, zipWith_append lengths, isAnd, ih (Nat.succ.inj sameLen)]

theorem mask_byte_bits : ∀ s ≤ 8, byteBits (maskByte s) = leading s 8 := by decide

theorem leading_more {width : Nat} (full : 8 ≤ length) (within : length ≤ width + 8) :
    leading 8 8 ++ leading (length - 8) width = leading length (width + 8) := by
  unfold leading
  obtain ⟨rest, rfl⟩ := Nat.exists_eq_add_of_le full
  rw [Nat.sub_self, replicate_zero, append_nil, Nat.add_sub_cancel_left, ← append_assoc,
    replicate_append_replicate]
  congr 2
  omega

theorem leading_less (within : length ≤ 8) (width : Nat) :
    leading length 8 ++ leading 0 width = leading length (width + 8) := by
  unfold leading
  rw [replicate_zero, nil_append, append_assoc, replicate_append_replicate]
  congr 2
  omega

theorem mask_bytes_bits (count : Nat) (within : shift ≤ 8 * count) :
    bits (maskBytes shift count) = leading shift (8 * count) := by
  induction count generalizing shift with
  | zero =>
    rw [Nat.eq_zero_of_le_zero within]
    rfl
  | succ count ih =>
    rw [maskBytes]
    by_cases more : shift > 8
    · rw [if_pos more]
      have isBits : bits (maskByte 8 :: maskBytes (shift - 8) count) =
          byteBits (maskByte 8) ++ bits (maskBytes (shift - 8) count) := rfl
      rw [isBits, mask_byte_bits 8 le_rfl, ih (by omega)]
      exact leading_more (le_of_lt more) within
    · rw [if_neg more, Nat.sub_self]
      have isBits : bits (maskByte shift :: maskBytes 0 count) =
          byteBits (maskByte shift) ++ bits (maskBytes 0 count) := rfl
      rw [isBits, mask_byte_bits shift (Nat.not_lt.1 more), ih (Nat.zero_le _)]
      exact leading_less (not_lt.1 more) _

theorem mask6_bits (within : shift ≤ 128) : bits (mask6 shift).val = leading shift 128 :=
  mask_bytes_bits 16 within

theorem mask4_bits : ∀ shift ≤ 32, bits (inetBytes (mask4 shift)) = leading shift 32 := by decide

theorem land_bits {length : Nat} (sameLen : bytes.length = mask.length)
    (within : length ≤ 8 * bytes.length) (isMask : bits mask = leading length (8 * bytes.length)) :
    bits (List.zipWith (· &&& ·) bytes mask) =
      (bits bytes).take length ++ List.replicate ((bits bytes).length - length) false := by
  rw [bits_and sameLen, isMask, ← bits_length]
  exact and_leading (by rw [bits_length]; exact within)

theorem land_eq_iff {network : Bytes} (sameLen : bytes.length = mask.length)
    (sameNetwork : network.length = mask.length) (within : length ≤ 8 * bytes.length)
    (isMask : bits mask = leading length (8 * bytes.length))
    (isMasked : List.zipWith (· &&& ·) network mask = network) :
    List.zipWith (· &&& ·) bytes mask = network ↔ (bits bytes).take length = (bits network).take length := by
  have sameBytes : bytes.length = network.length := sameLen.trans sameNetwork.symm
  have sameBits : (bits bytes).length = (bits network).length := by
    rw [bits_length, bits_length, sameBytes]
  have isNetwork : bits (List.zipWith (· &&& ·) network mask) =
      (bits network).take length ++ List.replicate ((bits network).length - length) false := by
    rw [sameBytes] at within isMask
    exact land_bits sameNetwork within isMask
  rw [isMasked] at isNetwork
  rw [← masked_eq_iff sameBits, ← land_bits sameLen within isMask, ← isNetwork]
  refine ⟨fun equal => by rw [equal], fun equal => bits_injective ?_ equal⟩
  rw [length_zipWith, ← sameLen, Nat.min_self, sameBytes]

theorem land_self_iff {length : Nat} (sameLen : bytes.length = mask.length)
    (within : length ≤ 8 * bytes.length) (isMask : bits mask = leading length (8 * bytes.length)) :
    List.zipWith (· &&& ·) bytes mask = bytes ↔ true ∉ (bits bytes).drop length := by
  rw [← masked_self_iff length, ← land_bits sameLen within isMask]
  refine ⟨fun equal => by rw [equal], fun equal => bits_injective ?_ equal⟩
  rw [length_zipWith, ← sameLen, Nat.min_self]

/-- What a text says: an address of a family, and how many bits of it count. -/
inductive Writes : Bytes → Family → List Bool → Nat → Prop
  | whole {text : Bytes} {cidr : Cidr} {family : Family} {written : List Bool}
      (noSlash : '/'.toUInt8 ∉ text) (isAddr : readAddress text = some cidr)
      (isWritten : cidrAddress cidr = some (family, written)) : Writes text family written family.width
  | slash {front number : Bytes} {cidr : Cidr} {family : Family} {written : List Bool} {length : Nat}
      (noSlash : '/'.toUInt8 ∉ front) (isAddr : readAddress front = some cidr)
      (isWritten : cidrAddress cidr = some (family, written)) (isLength : ngxAtoi number = some length) :
      Writes (front ++ '/'.toUInt8 :: number) family written length

structure Stored (cidr : Cidr) (family : Family) (written : List Bool) (length : Nat) : Prop where
  limit : length ≤ family.width
  mask : cidrMask cidr = some (family, leading length family.width)
  address : cidrAddress cidr =
    some (family, written.take length ++ List.replicate (family.width - length) false)
  itself : masked cidr = cidr

section Storing

variable {cidr after : Cidr} {rc : ReturnCode} {shift : Nat} {text : Bytes}

theorem inet_bytes_land (addr mask : InAddr) :
    inetBytes (InAddr.land addr mask) = List.zipWith (· &&& ·) (inetBytes addr) (inetBytes mask) := rfl

theorem inet_bytes_injective {left right : InAddr} (same : inetBytes left = inetBytes right) :
    left = right := by
  injection same with first rest
  injection rest with second rest
  injection rest with third rest
  injection rest with fourth
  rw [InAddr.mk.injEq]
  exact ⟨first, second, third, fourth⟩

theorem inet_land_iff (addr mask network : InAddr) : InAddr.land addr mask = network ↔
      List.zipWith (· &&& ·) (inetBytes addr) (inetBytes mask) = inetBytes network := by
  rw [← inet_bytes_land]
  exact ⟨fun same => by rw [same], fun same => inet_bytes_injective same⟩

theorem inet6_land_iff (addr mask network : In6Addr) :
    In6Addr.land addr mask = network ↔ List.zipWith (· &&& ·) addr.val mask.val = network.val :=
  Subtype.ext_iff

theorem inet_land_twice (addr mask : InAddr) :
    InAddr.land (InAddr.land addr mask) mask = InAddr.land addr mask := by
  simp [InAddr.land, UInt8.and_assoc]

theorem zip_land_twice (bytes mask : Bytes) :
    List.zipWith (· &&& ·) (List.zipWith (· &&& ·) bytes mask) mask = List.zipWith (· &&& ·) bytes mask := by
  induction bytes generalizing mask with
  | nil => rfl
  | cons byte bytes ih =>
    cases mask with
    | nil => rfl
    | cons first mask =>
      rw [zipWith_cons_cons, zipWith_cons_cons, ih, UInt8.and_assoc, UInt8.and_self]

theorem inet6_land_twice (addr mask : In6Addr) :
    In6Addr.land (In6Addr.land addr mask) mask = In6Addr.land addr mask :=
  Subtype.ext (zip_land_twice addr.val mask.val)

theorem inet_width (addr : InAddr) : (bits (inetBytes addr)).length = 32 := bits_length _

theorem inet6_width (addr : In6Addr) : (bits addr.val).length = 128 := by
  rw [bits_length, addr.property]

theorem apply_mask_stored {family : Family} {written : List Bool}
    (isWritten : cidrAddress cidr = some (family, written)) (isApplied : applyMask shift cidr = (rc, after))
    (fine : rc ≠ .ngxError) : Stored after family written shift ∧ (rc = .ngxOk ∨ rc = .ngxDone) ∧
      (rc = .ngxDone ↔ true ∈ written.drop shift) := by
  cases cidr with
  | unix => cases isWritten
  | inet addr mask =>
    injection isWritten with isWritten
    injection isWritten with isFamily isBits
    subst isFamily isBits
    rw [applyMask] at isApplied
    by_cases large : shift > 32
    · rw [if_pos large] at isApplied
      injection isApplied with isRc
      exact absurd isRc.symm fine
    · have within := not_lt.1 large
      have isMask : bits (inetBytes (mask4 shift)) = leading shift 32 := mask4_bits shift within
      have isLand : bits (inetBytes (InAddr.land addr (mask4 shift))) =
          (bits (inetBytes addr)).take shift ++ List.replicate (32 - shift) false := by
        rw [inet_bytes_land, ← inet_width addr]
        exact @land_bits (inetBytes addr) (inetBytes (mask4 shift)) shift rfl within isMask
      have unmasked := (inet_land_iff addr (mask4 shift) addr).trans (land_self_iff rfl within isMask)
      have stored : Stored (.inet (InAddr.land addr (mask4 shift)) (mask4 shift)) .afInet
          (bits (inetBytes addr)) shift := by
        refine ⟨within, ?_, ?_, ?_⟩
        · exact congrArg (fun mask => some (Family.afInet, mask)) isMask
        · exact congrArg (fun bits => some (Family.afInet, bits)) isLand
        · rw [masked, inet_land_twice]
      rw [if_neg large] at isApplied
      by_cases kept : addr = InAddr.land addr (mask4 shift)
      · rw [if_pos kept] at isApplied
        injection isApplied with isRc isAfter
        subst isRc isAfter
        rw [← kept] at stored
        have noneLost := unmasked.1 kept.symm
        exact ⟨stored, .inl rfl, nofun, fun lost => absurd lost noneLost⟩
      · rw [if_neg kept] at isApplied
        injection isApplied with isRc isAfter
        subst isRc isAfter
        refine ⟨stored, .inr rfl, fun _ => ?_, fun _ => rfl⟩
        by_contra noneLost
        exact kept (unmasked.2 noneLost).symm
  | inet6 addr mask =>
    injection isWritten with isWritten
    injection isWritten with isFamily isBits
    subst isFamily isBits
    rw [applyMask] at isApplied
    by_cases large : shift > 128
    · rw [if_pos large] at isApplied
      injection isApplied with isRc
      exact absurd isRc.symm fine
    · have within := not_lt.1 large
      have isLength : 8 * addr.val.length = 128 := by rw [addr.property]
      have isMask : bits (mask6 shift).val = leading shift (8 * addr.val.length) := by
        rw [isLength]
        exact mask6_bits within
      have sameLen : addr.val.length = (mask6 shift).val.length :=
        addr.property.trans (mask6 shift).property.symm
      have isLand : bits (In6Addr.land addr (mask6 shift)).val =
          (bits addr.val).take shift ++ List.replicate (128 - shift) false := by
        rw [← inet6_width addr]
        exact land_bits sameLen (by rw [isLength]; exact within) isMask
      have unmasked := (inet6_land_iff addr (mask6 shift) addr).trans
        (land_self_iff sameLen (by rw [isLength]; exact within) isMask)
      have stored : Stored (.inet6 (In6Addr.land addr (mask6 shift)) (mask6 shift)) .afInet6
          (bits addr.val) shift := by
        refine ⟨within, ?_, ?_, ?_⟩
        · exact congrArg (fun mask => some (Family.afInet6, mask)) (mask6_bits within)
        · exact congrArg (fun bits => some (Family.afInet6, bits)) isLand
        · rw [masked, inet6_land_twice]
      rw [if_neg large] at isApplied
      by_cases kept : addr = In6Addr.land addr (mask6 shift)
      · rw [if_neg (not_not.2 kept)] at isApplied
        injection isApplied with isRc isAfter
        subst isRc isAfter
        rw [← kept] at stored
        have noneLost := unmasked.1 kept.symm
        exact ⟨stored, .inl rfl, nofun, fun lost => absurd lost noneLost⟩
      · rw [if_pos kept] at isApplied
        injection isApplied with isRc isAfter
        subst isRc isAfter
        refine ⟨stored, .inr rfl, fun _ => ?_, fun _ => rfl⟩
        by_contra noneLost
        exact kept (unmasked.2 noneLost).symm

theorem slash_split (text : Bytes) :
    ∃ front : Bytes, text = front ++ ngxStrlchr text '/'.toUInt8 ∧ '/'.toUInt8 ∉ front ∧
      text.take (text.length - (ngxStrlchr text '/'.toUInt8).length) = front := by
  have parts : text = text.takeWhile (· ≠ '/'.toUInt8) ++ ngxStrlchr text '/'.toUInt8 :=
    takeWhile_append_dropWhile.symm
  refine ⟨text.takeWhile (· ≠ '/'.toUInt8), parts, ?_, ?_⟩
  · intro mem
    have differ := mem_takeWhile_imp mem
    exact absurd rfl (of_decide_eq_true differ)
  · have lengths := congrArg List.length parts
    rw [length_append] at lengths
    have isFront : text.length - (ngxStrlchr text '/'.toUInt8).length =
        (text.takeWhile (· ≠ '/'.toUInt8)).length := by omega
    rw [isFront]
    exact (prefix_iff_eq_take.1 <| takeWhile_prefix _).symm

theorem slash_head {rest : Bytes} {first : Byte} (isRest : ngxStrlchr text '/'.toUInt8 = first :: rest) :
    first = '/'.toUInt8 := by
  have notDropped := head?_dropWhile_not (· ≠ '/'.toUInt8) text
  unfold ngxStrlchr at isRest
  rw [isRest] at notDropped
  simpa using notDropped

theorem full_bits : bits (inetBytes inaddrNone) = leading 32 32 ∧
    bits full6.val = leading 128 128 := by decide

theorem read_address_stored (isAddr : readAddress text = some cidr) :
    ∃ family written, cidrAddress cidr = some (family, written) ∧ written.length = family.width ∧
      Stored cidr family written family.width := by
  unfold readAddress at isAddr
  split at isAddr
  · cases isAddr
    generalize ngxInetAddr text = addr
    have unmasked := (inet_land_iff addr inaddrNone addr).trans
      (@land_self_iff _ _ 32 rfl (le_refl 32) full_bits.1)
    refine ⟨.afInet, bits (inetBytes addr), rfl, inet_width addr, le_rfl, ?_, ?_, ?_⟩
    · exact congrArg (fun mask => some (Family.afInet, mask)) full_bits.1
    · have whole : (bits (inetBytes addr)).take 32 = bits (inetBytes addr) :=
        take_of_length_le (le_of_eq (inet_width addr))
      change some (Family.afInet, bits (inetBytes addr)) =
        some (Family.afInet, (bits (inetBytes addr)).take 32 ++ [])
      rw [whole, append_nil]
    · have kept : InAddr.land addr inaddrNone = addr := by
        refine unmasked.2 ?_
        rw [drop_of_length_le (le_of_eq (inet_width addr))]
        exact not_mem_nil
      rw [masked, kept]
  · obtain ⟨bytes, -, isCidr⟩ := Option.map_eq_some_iff.1 isAddr
    rw [← isCidr]
    generalize copyInaddr6 bytes = addr
    have isLength : 8 * addr.val.length = 128 := by rw [addr.property]
    have unmasked := (inet6_land_iff addr full6 addr).trans
      (@land_self_iff _ _ 128 (addr.property.trans full6.property.symm) (by rw [isLength])
        (by rw [isLength]; exact full_bits.2))
    refine ⟨.afInet6, bits addr.val, rfl, inet6_width addr, le_rfl, ?_, ?_, ?_⟩
    · exact congrArg (fun mask => some (Family.afInet6, mask)) full_bits.2
    · have whole : (bits addr.val).take 128 = bits addr.val :=
        take_of_length_le (le_of_eq (inet6_width addr))
      change some (Family.afInet6, bits addr.val) = some (Family.afInet6, (bits addr.val).take 128 ++ [])
      rw [whole, append_nil]
    · have kept : In6Addr.land addr full6 = addr := by
        refine unmasked.2 ?_
        rw [drop_of_length_le (le_of_eq (inet6_width addr))]
        exact not_mem_nil
      rw [masked, kept]

theorem ptocidr_stored (accepted : (ngxPtocidr text).1 = .ngxOk ∨ (ngxPtocidr text).1 = .ngxDone) :
    ∃ cidr family written length, (ngxPtocidr text).2 = some cidr ∧ Writes text family written length ∧
      Stored cidr family written length ∧ ((ngxPtocidr text).1 = .ngxDone ↔ true ∈ written.drop length) := by
  obtain ⟨front, isText, noSlash, isFront⟩ := slash_split text
  dsimp only [ngxPtocidr] at accepted ⊢
  rw [isFront] at accepted ⊢
  cases isAddr : readAddress front with
  | none =>
    rw [isAddr] at accepted
    rcases accepted with isOk | isDone
    · cases isOk
    · cases isDone
  | some cidr =>
    rw [isAddr] at accepted
    obtain ⟨family, written, isWritten, isWidth, stored⟩ := read_address_stored isAddr
    cases isMask : ngxStrlchr text '/'.toUInt8 with
    | nil =>
      rw [isMask, append_nil] at isText
      rw [← isText] at isAddr noSlash
      refine ⟨cidr, family, written, family.width, rfl, .whole noSlash isAddr isWritten, stored, ?_⟩
      rw [← isWidth, drop_length]
      exact ⟨nofun, nofun⟩
    | cons first number =>
      rw [isMask] at accepted
      have isSlash := slash_head isMask
      rw [isMask, isSlash] at isText
      dsimp only at accepted ⊢
      cases isNumber : ngxAtoi number with
      | none =>
        rw [isNumber] at accepted
        rcases accepted with isOk | isDone
        · cases isOk
        · cases isDone
      | some shift =>
        rw [isNumber] at accepted
        dsimp only at accepted ⊢
        match isApplied : applyMask shift cidr with
        | (rc, after) =>
          rw [isApplied] at accepted
          have fine : rc ≠ .ngxError := by
            rintro rfl
            rcases accepted with isOk | isDone
            · cases isOk
            · cases isDone
          obtain ⟨stored, -, lost⟩ := apply_mask_stored isWritten isApplied fine
          refine ⟨after, family, written, shift, if_neg fine, ?_, stored, lost⟩
          rw [isText]
          exact .slash noSlash isAddr isWritten isNumber

end Storing

section Matching

variable {cidr : Cidr} {sa : Sockaddr} {family : Family} {written : List Bool} {length : Nat}

theorem mapped_bytes (addr : In6Addr) : inetBytes (mappedAddr addr) = addr.val.drop 12 := by
  obtain ⟨bytes, isLength⟩ := addr
  have isRest : ∃ b0 b1 b2 b3 : Byte, bytes.drop 12 = [b0, b1, b2, b3] := by
    have restLength : (bytes.drop 12).length = 4 := by rw [length_drop, isLength]
    match bytes.drop 12, restLength with
    | [b0, b1, b2, b3], _ => exact ⟨b0, b1, b2, b3, rfl⟩
  obtain ⟨b0, b1, b2, b3, isRest⟩ := isRest
  have at_ : ∀ k, bytes.getD (12 + k) 0 = (bytes.drop 12).getD k 0 := by
    intro k
    rw [getD_eq_getElem?_getD, getD_eq_getElem?_getD, getElem?_drop]
  have isNumber : ((b0.toNat <<< 24 + b1.toNat <<< 16) + b2.toNat <<< 8) + b3.toNat =
      ((b0.toNat * 256 + b1.toNat) * 256 + b2.toNat) * 256 + b3.toNat := by
    simp only [Nat.shiftLeft_eq]
    omega
  have isMapped : mappedAddr ⟨bytes, isLength⟩ = ⟨b0, b1, b2, b3⟩ := by
    rw [← htonl_bytes b0 b1 b2 b3, ← isNumber, mappedAddr]
    rw [at_ 0, at_ 1, at_ 2, at_ 3, isRest]
    rfl
  rw [isMapped, isRest]
  rfl

theorem stored_prefix {network : List Bool} {width : Nat} (isWidth : network.length = width)
    (limit : length ≤ width)
    (isNetwork : network = written.take length ++ List.replicate (width - length) false) :
    network.take length = written.take length := by
  have lengths := congrArg List.length isNetwork
  rw [length_append, length_replicate, length_take, isWidth] at lengths
  rw [isNetwork, take_append_of_le_length (by rw [length_take]; omega), take_take, Nat.min_self]

theorem peer_address_eq (sa : Sockaddr) : peerAddress sa = match peer sa with
    | .inet addr _ => some (inetAddress addr) | .inet6 addr _ => some (inet6Address addr)
    | .unix _ => none | .other => none := by
  cases sa with
  | inet addr port => rfl
  | inet6 addr port =>
    rw [peer, peerAddress]
    by_cases mapped : in6IsAddrV4mapped addr = true
    · rw [if_pos mapped, if_pos (of_decide_eq_true mapped), ← mapped_bytes]
      rfl
    · rw [if_neg mapped, if_neg fun isMapped => mapped (decide_eq_true isMapped)]
  | unix path => rfl
  | other => rfl

theorem cidr_matches_iff (stored : Stored cidr family written length) (sa : Sockaddr) :
    cidrMatches (peer sa) cidr = true ↔
      ∃ address, peerAddress sa = some (family, address) ∧ address.take length = written.take length := by
  obtain ⟨limit, mask, address, itself⟩ := stored
  cases cidr with
  | unix => cases mask
  | inet addr mask' =>
    injection mask with mask
    injection mask with isFamily isMask
    subst isFamily
    injection address with address
    injection address with _ isAddr
    injection itself with isMasked
    have matches_ : ∀ peerAddr, InAddr.land peerAddr mask' = addr ↔
        (bits (inetBytes peerAddr)).take length = written.take length := by
      intro peerAddr
      rw [inet_land_iff, ← stored_prefix (inet_width addr) limit isAddr]
      exact land_eq_iff rfl rfl limit isMask ((inet_land_iff addr mask' addr).1 isMasked)
    rw [peer_address_eq]
    cases peer sa with
    | inet peerAddr port =>
      rw [cidrMatches, decide_eq_true_iff, matches_]
      simp [inetAddress]
    | inet6 peerAddr port => simp [cidrMatches, inet6Address]
    | unix path => simp [cidrMatches]
    | other => simp [cidrMatches]
  | inet6 addr mask' =>
    injection mask with mask
    injection mask with isFamily isMask
    subst isFamily
    injection address with address
    injection address with _ isAddr
    injection itself with isMasked
    have matches_ : ∀ peerAddr : In6Addr, In6Addr.land peerAddr mask' = addr ↔
        (bits peerAddr.val).take length = written.take length := by
      intro peerAddr
      have isLength : 8 * peerAddr.val.length = 128 := by rw [peerAddr.property]
      rw [inet6_land_iff, ← stored_prefix (inet6_width addr) limit isAddr]
      exact land_eq_iff (peerAddr.property.trans mask'.property.symm)
        (addr.property.trans mask'.property.symm) (by rw [isLength]; exact limit)
        (by rw [isLength]; exact isMask) ((inet6_land_iff addr mask' addr).1 isMasked)
    rw [peer_address_eq]
    cases peer sa with
    | inet peerAddr port => simp [cidrMatches, inetAddress]
    | inet6 peerAddr port =>
      rw [cidrMatches, decide_eq_true_iff, matches_]
      simp [inet6Address]
    | unix path => simp [cidrMatches]
    | other => simp [cidrMatches]

end Matching

def StoredFor (text : Bytes) (cidr : Cidr) : Prop :=
  ((ngxPtocidr text).1 = .ngxOk ∨ (ngxPtocidr text).1 = .ngxDone) ∧ (ngxPtocidr text).2 = some cidr

/-- What is stored for a text is the prefix that it writes, and a peer matches a list of
such blocks exactly when it has one of these prefixes. -/
theorem cidr_is_prefix : (∀ text, (ngxPtocidr text).1 = .ngxOk ∨ (ngxPtocidr text).1 = .ngxDone →
      ∃ cidr family written length, (ngxPtocidr text).2 = some cidr ∧ Writes text family written length ∧
        Stored cidr family written length ∧ ((ngxPtocidr text).1 = .ngxDone ↔ true ∈ written.drop length)) ∧
    ∀ blocks : List (Bytes × Cidr), (∀ block ∈ blocks, StoredFor block.1 block.2) →
      ∀ sa, ngxCidrMatch sa (blocks.map Prod.snd) = .ngxOk ↔
        ∃ block ∈ blocks, ∃ family written length address, Writes block.1 family written length ∧
          Stored block.2 family written length ∧ peerAddress sa = some (family, address) ∧
          address.take length = written.take length := by
  refine ⟨fun text accepted => ptocidr_stored accepted, ?_⟩
  intro blocks storedFor sa
  have isAny : ngxCidrMatch sa (blocks.map Prod.snd) = .ngxOk ↔
      ∃ block ∈ blocks, cidrMatches (peer sa) block.2 = true := by
    rw [ngxCidrMatch, any_map]
    constructor
    · intro isOk
      split at isOk
      · rename_i found
        exact any_eq_true.1 found
      · cases isOk
    · intro found
      exact if_pos (any_eq_true.2 found)
  rw [isAny]
  constructor
  · rintro ⟨block, mem, isMatch⟩
    obtain ⟨accepted, isStored⟩ := storedFor block mem
    obtain ⟨cidr, family, written, length, isCidr, writes, stored, -⟩ := ptocidr_stored accepted
    rw [isStored] at isCidr
    cases isCidr
    obtain ⟨address, isPeer, same⟩ := (cidr_matches_iff stored sa).1 isMatch
    exact ⟨block, mem, family, written, length, address, writes, stored, isPeer, same⟩
  · rintro ⟨block, mem, family, written, length, address, writes, stored, isPeer, same⟩
    exact ⟨block, mem, (cidr_matches_iff stored sa).2 ⟨address, isPeer, same⟩⟩

/-- "10.1.0.0/8" -/
def exampleBlock : Bytes := "10.1.0.0/8".toUTF8.toList

def exampleCidr : Cidr := .inet ⟨10, 0, 0, 0⟩ ⟨255, 0, 0, 0⟩

/-- The peer 10.2.3.4 is in the block that is stored. -/
theorem example_block_stored : (∃ cidr family written length, (ngxPtocidr exampleBlock).2 = some cidr ∧
      Writes exampleBlock family written length ∧ Stored cidr family written length ∧
      ((ngxPtocidr exampleBlock).1 = .ngxDone ↔ true ∈ written.drop length)) ∧
    ∃ block ∈ [(exampleBlock, exampleCidr)], ∃ family written length address,
      Writes block.1 family written length ∧ Stored block.2 family written length ∧
      peerAddress (.inet ⟨10, 2, 3, 4⟩ 80) = some (family, address) ∧
      address.take length = written.take length := by
  have isDone : (ngxPtocidr exampleBlock).1 = .ngxDone := by with_unfolding_all decide
  have isCidr : (ngxPtocidr exampleBlock).2 = some exampleCidr := by with_unfolding_all rfl
  have stored : ∀ block ∈ [(exampleBlock, exampleCidr)], StoredFor block.1 block.2 := by
    intro block mem
    rw [mem_singleton.mp mem]
    exact ⟨.inr isDone, isCidr⟩
  have first := cidr_is_prefix.1 exampleBlock (.inr isDone)
  have matched := cidr_is_prefix.2 _ stored (.inet ⟨10, 2, 3, 4⟩ 80)
  exact ⟨first, matched.mp (by decide)⟩

end ServerCore.NginxCidrPrefix
