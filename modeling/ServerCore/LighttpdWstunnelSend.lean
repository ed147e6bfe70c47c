import ServerCore.DigitString
import ServerCore.LighttpdWstunnelFrames

/-!
# Frames to the client

`send_rfc_6455` of `mod_wstunnel`, and the framing rules by which a client reads
what is sent: two bytes of flags, the length in its shortest form, a masking key
if there is one, and the payload.
-/

namespace ServerCore.LighttpdWstunnelSend

open DigitString LighttpdChunk LighttpdWstunnel LighttpdWstunnelFrames List Function

def opcode : FrameType → Byte
  | .text => 0x01
  | .bin => 0x02
  | .close => 0x08
  | .ping => 0x09
  | .pong => 0x0a

/-- `mem[i] = number & 0xff`. -/
def put (mem : Nat → Byte) (i number : Nat) : Nat → Byte := update mem i (UInt8.ofNat (number &&& 0xff))

/-- The array `mem` and `len`. -/
def header (mem : Nat → Byte) (type : FrameType) (siz : Nat) : (Nat → Byte) × Nat :=
  let mem := update mem 0 (0x80 ||| opcode type)
  if siz < frameLen16 then (put mem 1 siz, 2)
  else if siz ≤ 0xffff then (put (put (put mem 1 frameLen16) 2 (siz >>> 8)) 3 siz, 4)
  else
    -- `memset` clears all ten bytes, `mem[0]` among them
    let mem := put (fun _ => 0) 1 frameLen63
    (put (put (put (put mem 6 (siz >>> 24)) 7 (siz >>> 16)) 8 (siz >>> 8)) 9 siz, 10)

/-- The bytes that are appended, or `none` for `return -1`. `mem` starts with any contents. -/
def sendRfc6455 (mem : Nat → Byte) (type : FrameType) (payload : Option Bytes) :
    Option Bytes :=
  if payload = none ∧ (type = .text ∨ type = .bin) then none
  else
    let bytes := payload.getD []
    let (mem, len) := header mem type bytes.length
    some ((range len).map mem ++ bytes)

structure ParsedFrame where
  fin : Bool
  opcode : Byte
  masked : Bool
  payload : Bytes

def formOf (second : Byte) : LengthForm :=
  if second &&& 0x7f = 0x7f then .len63 else if second &&& 0x7f = 0x7e then .len16 else .short

def width : LengthForm → Nat
  | .short => 0
  | .len16 => 2
  | .len63 => 8

/-- The least length that may be written in a form. -/
def least : LengthForm → Nat
  | .short => 0
  | .len16 => 126
  | .len63 => 2 ^ 16

def lengthOf (second : Byte) (rest : Bytes) : Nat :=
  if formOf second = .short then (second &&& 0x7f).toNat
  else value 256 ((rest.take (width (formOf second))).map UInt8.toNat)

/-- The bytes as one whole frame without reserved bits. -/
def parseFrame : Bytes → Option ParsedFrame
  | first :: second :: rest =>
    let form := formOf second
    let length := lengthOf second rest
    let masked := decide (second &&& 0x80 ≠ 0)
    let keyWidth := if masked then 4 else 0
    let key := (rest.drop (width form)).take keyWidth
    let body := rest.drop (width form + keyWidth)
    if first &&& 0x70 = 0 ∧ least form ≤ length ∧ length < form.limit ∧
        rest.length = width form + keyWidth + length then
      some {
        fin := decide (first &&& 0x80 ≠ 0)
        opcode := first &&& 0x0f
        masked := masked
        payload := if masked then (unmaskPayload (fun i => key.getD i 0) 0 body).1 else body }
    else none
  | _ => none

theorem low_byte (byte : Byte) : byte &&& 0xff = byte :=
  UInt8.and_neg_one

theorem short_byte : ∀ length < frameLen16, UInt8.ofNat length &&& 0x80 = 0 ∧
    formOf (UInt8.ofNat length) = .short ∧ (UInt8.ofNat length &&& 0x7f).toNat = length := by decide

section

variable (mem : Nat → Byte) (type : FrameType) {payload : Bytes}

theorem built_parses {second : Byte} {extended : Bytes} (unmasked : second &&& 0x80 = 0)
    (isWidth : extended.length = width (formOf second))
    (isLength : lengthOf second (extended ++ payload) = payload.length)
    (shortest : least (formOf second) ≤ payload.length ∧ payload.length < (formOf second).limit) :
    parseFrame ((0x80 ||| opcode type) :: second :: extended ++ payload) =
      some ⟨true, opcode type, false, payload⟩ := by
  have first : (0x80 ||| opcode type) &&& 0x70 = 0 ∧ (0x80 ||| opcode type) &&& 0x80 ≠ 0 ∧
      (0x80 ||| opcode type) &&& 0x0f = opcode type := by cases type <;> decide
  rw [cons_append, cons_append, parseFrame]
  simp [first, unmasked, isLength, shortest, ← isWidth]

theorem short_parses (short : payload.length < frameLen16) :
    (sendRfc6455 mem type (some payload)).bind parseFrame = some ⟨true, opcode type, false, payload⟩ := by
  obtain ⟨unmasked, isForm, isLength⟩ := short_byte _ short
  rw [← @built_parses type payload _ [] unmasked (by rw [isForm]; rfl)
    (by rw [lengthOf, if_pos isForm, isLength]) (by rw [isForm]; exact ⟨Nat.zero_le _, short⟩)]
  simp [sendRfc6455, header, short, range_succ, put, low_byte]

theorem middle_parses (above : frameLen16 ≤ payload.length) (small : payload.length ≤ 0xffff) :
    (sendRfc6455 mem type (some payload)).bind parseFrame = some ⟨true, opcode type, false, payload⟩ := by
  unfold frameLen16 at above
  have isLength : lengthOf 0x7e
      ([UInt8.ofNat (payload.length >>> 8), UInt8.ofNat payload.length] ++ payload) =
      payload.length := by
    have isForm : formOf 0x7e = .len16 := by decide
    rw [lengthOf, isForm, if_neg (by decide)]
    simp [width, value_cons, Nat.shiftRight_eq_div_pow]
    omega
  rw [← built_parses type (by decide) rfl isLength ⟨above, Nat.lt_succ_of_le small⟩]
  simp [sendRfc6455, header, frameLen16, Nat.not_lt.mpr above, small, range_succ, put, low_byte]

theorem long_not_final (long : 0xffff < payload.length) {frame : ParsedFrame}
    (parsed : (sendRfc6455 mem type (some payload)).bind parseFrame = some frame) : frame.fin = false := by
  have notShort : ¬payload.length < frameLen16 := by
    unfold frameLen16
    omega
  simp [sendRfc6455, header, notShort, Nat.not_le.mpr long, range_succ, put, low_byte,
    parseFrame] at parsed
  rw [← parsed.2]

end

/-- What is sent is one whole unmasked frame with FIN, the opcode of the type and the payload. -/
def SendsFrame (mem : Nat → Byte) (type : FrameType) (payload : Option Bytes) : Prop :=
  (sendRfc6455 mem type payload).bind parseFrame = some ⟨true, opcode type, false, payload.getD []⟩

theorem sends_frame_iff (mem : Nat → Byte) (type : FrameType) (payload : Option Bytes) :
    SendsFrame mem type payload ↔
      ¬(payload = none ∧ (type = .text ∨ type = .bin)) ∧ (payload.getD []).length ≤ 0xffff := by
  by_cases refused : payload = none ∧ (type = .text ∨ type = .bin)
  · rw [SendsFrame, sendRfc6455, if_pos refused]
    simp [refused]
  · have same : sendRfc6455 mem type payload = sendRfc6455 mem type (some (payload.getD [])) := by
      rw [sendRfc6455, sendRfc6455, if_neg refused, if_neg (by simp)]
      rfl
    rw [SendsFrame, same]
    constructor
    · intro parsed
      refine ⟨refused, ?_⟩
      by_contra long
      exact Bool.noConfusion (long_not_final mem type (by omega) parsed)
    · rintro ⟨-, small⟩
      by_cases short : (payload.getD []).length < frameLen16
      · exact short_parses mem type short
      · exact middle_parses mem type (Nat.not_lt.mp short) small

theorem long_text_not_framed :
    ¬∀ (mem : Nat → Byte) (type : FrameType) (payload : Bytes), payload.length < 2 ^ 63 →
      SendsFrame mem type (some payload) := by
  intro always
  have sent := always (fun _ => 0) .text (replicate 65536 0) (by rw [length_replicate]; decide)
  exact Bool.noConfusion (long_not_final _ _ (by rw [length_replicate]; decide) sent)

end ServerCore.LighttpdWstunnelSend
