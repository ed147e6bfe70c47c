import ServerCore.LighttpdWstunnelBytes

/-!
# What the client's frames become

The frames of a client as RFC 6455 lays them out: text, binary and continuation
frames carry data, PINGs and PONGs may stand between them, each with one of the
three forms of the length, a mask and any upper half of the first byte.
-/

namespace ServerCore.LighttpdWstunnelFrames

open LighttpdChunk RefusingMachine LighttpdWstunnel LighttpdWstunnelBytes List Function

variable {bytes : Bytes}
variable {mask : Nat → Byte}

inductive Kind where
  | text
  | bin
  | cont
  | ping
  | pong
  deriving DecidableEq

def Kind.opcode : Kind → Byte
  | .cont => 0x00
  | .text => 0x01
  | .bin => 0x02
  | .ping => 0x09
  | .pong => 0x0a

def Kind.carriesData : Kind → Bool
  | .text => true
  | .bin => true
  | .cont => true
  | _ => false

inductive LengthForm where
  | short
  | len16
  | len63
  deriving DecidableEq

def LengthForm.limit : LengthForm → Nat
  | .short => 126
  | .len16 => 2 ^ 16
  | .len63 => 2 ^ 63

/-- A number in `n` bytes, the highest first. -/
def bigEndian : Nat → Nat → Bytes
  | 0, _ => []
  | n + 1, value => UInt8.ofNat (value / 256 ^ n % 256) :: bigEndian n value

/-- A masked frame; `payload` is what the client means. -/
structure ClientFrame where
  flags : Byte
  kind : Kind
  form : LengthForm
  mask : Fin 4 → Byte
  payload : Bytes
  fits : payload.length < form.limit
  pingFits : kind = .ping → payload.length ≤ bufMax

namespace ClientFrame

def firstByte (flags : Byte) (opcode : Byte) : Byte := (flags &&& 0xf0) ||| opcode

def secondByte (f : ClientFrame) : Byte :=
  match f.form with
  | .short => 0x80 ||| UInt8.ofNat f.payload.length
  | .len16 => 0xfe
  | .len63 => 0xff

def extended (f : ClientFrame) : Bytes :=
  match f.form with
  | .short => []
  | .len16 => bigEndian 2 f.payload.length
  | .len63 => bigEndian 8 f.payload.length

def maskAt (mask : Fin 4 → Byte) (i : Nat) : Byte := mask ⟨i % 4, Nat.mod_lt i (by decide)⟩

def masked (f : ClientFrame) : Bytes :=
  f.payload.mapIdx fun i b => b ^^^ maskAt f.mask i

def maskBytes (f : ClientFrame) : Bytes := [f.mask 0, f.mask 1, f.mask 2, f.mask 3]

def encode (f : ClientFrame) : Bytes :=
  firstByte f.flags f.kind.opcode :: f.secondByte :: (f.extended ++ (f.maskBytes ++ f.masked))

def data (f : ClientFrame) : Bytes := if f.kind.carriesData then f.payload else []

def pongs (f : ClientFrame) : List (FrameType × Bytes) :=
  if f.kind = .ping then [(.pong, f.payload)] else []

end ClientFrame

structure Idle (p : Progress) : Prop where
  state : p.frame.state = .init
  held : p.held = []
  before : p.frame.typeBefore = .text ∨ p.frame.typeBefore = .bin
  known : p.frame.type ≠ .close

def Typed (kind : Kind) (frame : Frame) : Prop :=
  match kind with
  | .ping => frame.type = .ping
  | .pong => frame.type = .pong
  | _ => frame.type = .text ∨ frame.type = .bin

/-- In a frame that began at `start`, before its payload. -/
structure InHeader (f : ClientFrame) (start p : Progress) : Prop where
  typed : Typed f.kind p.frame
  before : p.frame.typeBefore = .text ∨ p.frame.typeBefore = .bin
  held : p.held = []
  data : p.data = start.data
  sends : p.sends = start.sends

/-- Where the machine stands in a frame that began at `start`, and the bytes of the
frame that are still to come. -/
inductive Stage (f : ClientFrame) (start : Progress) : Progress → Bytes → Prop
  | first {p : Progress} : Idle p → p.data = start.data → p.sends = start.sends →
      Stage f start p f.encode
  | second {p : Progress} : InHeader f start p → p.frame.state = .readLength →
      Stage f start p (f.secondByte :: (f.extended ++ (f.maskBytes ++ f.masked)))
  | extended {p : Progress} (left : Nat) : InHeader f start p → p.frame.state = .readExLength →
      p.frame.siz = f.payload.length / 256 ^ (left + 1) → p.frame.sizCnt = left + 1 →
      p.frame.maskCnt = 0 →
      Stage f start p (bigEndian (left + 1) f.payload.length ++ (f.maskBytes ++ f.masked))
  | mask {p : Progress} (k : Nat) : k < 4 → InHeader f start p → p.frame.state = .readMask →
      p.frame.siz = f.payload.length → p.frame.maskCnt = k →
      (∀ i : Fin 4, i.val < k → p.frame.mask i = f.mask i) →
      Stage f start p (f.maskBytes.drop k ++ f.masked)
  | body {p : Progress} (k : Nat) : k < f.payload.length → Typed f.kind p.frame →
      (p.frame.typeBefore = .text ∨ p.frame.typeBefore = .bin) →
      p.frame.state = .readPayload → p.frame.siz = f.payload.length - k →
      (∀ i : Fin 4, p.frame.mask i = f.mask i) →
      p.frame.maskCnt = (if f.kind.carriesData then k % 4 else 0) →
      p.held = (if f.kind = .ping then f.masked.take k else []) →
      p.data = start.data ++ (if f.kind.carriesData then f.payload.take k else []) →
      p.sends = start.sends → Stage f start p (f.masked.drop k)
  | complete {p : Progress} : Idle p → p.data = start.data ++ f.data →
      p.sends = start.sends ++ f.pongs → Stage f start p []

section Steps

variable {f : ClientFrame} {start p : Progress} {b : Byte} {rest : Bytes}

theorem opcode_of_first (flags : Byte) {opcode : Byte} (isLow : opcode &&& 0x0f = opcode) :
    ClientFrame.firstByte flags opcode &&& 0x0f = opcode := by
  have upper : (0xf0 : Byte) &&& 0x0f = 0 := by decide
  have halves : (flags &&& 0xf0 ||| opcode) &&& 0x0f =
      (flags &&& 0xf0 &&& 0x0f) ||| (opcode &&& 0x0f) :=
    UInt8.toBitVec_inj.1 BitVec.and_or_distrib_right
  rw [ClientFrame.firstByte, halves, UInt8.and_assoc, upper, isLow, UInt8.and_zero, UInt8.zero_or]

theorem init_step (idle : Idle p) (flags : Byte) (kind : Kind) :
    ∃ next, byteStep p (ClientFrame.firstByte flags kind.opcode) = some next ∧
      Typed kind next.frame ∧ (next.frame.typeBefore = .text ∨ next.frame.typeBefore = .bin) ∧
      next.frame.state = .readLength ∧ next.held = p.held ∧ next.data = p.data ∧ next.sends = p.sends := by
  have header : p.frame.state ≠ .readPayload := by simp [idle.state]
  rw [step_header header, headerByte, frameByte, idle.state]
  rw [initByte, opcode_of_first flags (by cases kind <;> decide)]
  cases kind with
  | text => exact ⟨_, rfl, .inl rfl, .inl rfl, rfl, rfl, rfl, append_nil _⟩
  | bin => exact ⟨_, rfl, .inr rfl, .inr rfl, rfl, rfl, rfl, append_nil _⟩
  | cont => exact ⟨_, rfl, idle.before, idle.before, rfl, rfl, rfl, append_nil _⟩
  | ping | pong => exact ⟨_, rfl, rfl, idle.before, rfl, rfl, rfl, append_nil _⟩

theorem short_length : ∀ n < 126, ((0x80 : Byte) ||| UInt8.ofNat n) &&& 0x80 = 0x80 ∧
    (((0x80 : Byte) ||| UInt8.ofNat n) &&& 0x7f).toNat = n := by
  decide

variable {frame : Frame} {kind : Kind} {k : Nat}

theorem quiet_step (header : p.frame.state ≠ .readPayload)
    (taken : frameByte p.frame b = .ok (frame, false)) : byteStep p b = some { p with frame := frame } := by
  rw [step_header header, headerByte, taken]
  simp

theorem typed_congr {frame' : Frame} (same : frame'.type = frame.type)
    (typed : Typed kind frame) : Typed kind frame' := by
  unfold Typed at *
  rw [same]
  exact typed

theorem typed_ping (typed : Typed kind frame) (isPing : frame.type = .ping) : kind = .ping := by
  cases kind <;> simp_all [Typed]

theorem typed_known (typed : Typed kind frame) : frame.type ≠ .close := by
  cases kind <;> simp [Typed] at typed <;> grind

theorem header_congr (inHeader : InHeader f start p) (same : frame.type = p.frame.type)
    (sameBefore : frame.typeBefore = p.frame.typeBefore) : InHeader f start { p with frame := frame } :=
  ⟨typed_congr same inHeader.typed, sameBefore ▸ inHeader.before, inHeader.held, inHeader.data,
    inHeader.sends⟩

theorem length_step (inHeader : InHeader f start p) (state : p.frame.state = .readLength) :
    ∃ next, byteStep p f.secondByte = some next ∧
      Stage f start next (f.extended ++ (f.maskBytes ++ f.masked)) := by
  have header : p.frame.state ≠ .readPayload := by simp [state]
  have fits := f.fits
  have taken : frameByte p.frame f.secondByte =
      (lengthByte p.frame f.secondByte).map fun f => (f, false) := by
    rw [frameByte, state]
  cases form : f.form with
  | short =>
    rw [form] at fits
    obtain ⟨hasMask, isLength⟩ := short_length f.payload.length fits
    have isSecond : f.secondByte = 0x80 ||| UInt8.ofNat f.payload.length := by
      rw [ClientFrame.secondByte, form]
    have noMore : f.extended = [] := by rw [ClientFrame.extended, form]
    have read : lengthByte p.frame f.secondByte = .ok { p.frame with
        maskCnt := 0, siz := f.payload.length, state := .readMask } := by
      rw [isSecond, lengthByte, if_neg (not_not.2 hasMask), isLength]
      by_cases isZero : f.payload.length = 0
      · rw [if_pos isZero]
      · have not16 : f.payload.length ≠ frameLen16 := Nat.ne_of_lt fits
        have not63 : f.payload.length ≠ frameLen63 := Nat.ne_of_lt (Nat.lt_succ_of_lt fits)
        rw [if_neg isZero, if_neg not16, if_neg not63]
    rw [read] at taken
    refine ⟨_, quiet_step header taken, ?_⟩
    rw [noMore, nil_append]
    exact Stage.mask 0 (by decide) (header_congr inHeader rfl rfl) rfl rfl rfl
      (by simp)
  | len16 =>
    rw [form] at fits
    have isSecond : f.secondByte = 0xfe := by rw [ClientFrame.secondByte, form]
    have more : f.extended = bigEndian 2 f.payload.length := by rw [ClientFrame.extended, form]
    have read : lengthByte p.frame f.secondByte = .ok { p.frame with
        maskCnt := 0, siz := 0, sizCnt := frameLen16Cnt, state := .readExLength } := by
      rw [isSecond]
      rfl
    rw [read] at taken
    refine ⟨_, quiet_step header taken, ?_⟩
    rw [more]
    exact Stage.extended 1 (header_congr inHeader rfl rfl) rfl
      (Nat.div_eq_of_lt fits).symm rfl rfl
  | len63 =>
    rw [form] at fits
    have isSecond : f.secondByte = 0xff := by rw [ClientFrame.secondByte, form]
    have more : f.extended = bigEndian 8 f.payload.length := by rw [ClientFrame.extended, form]
    have read : lengthByte p.frame f.secondByte = .ok { p.frame with
        maskCnt := 0, siz := 0, sizCnt := frameLen63Cnt, state := .readExLength } := by
      rw [isSecond]
      rfl
    rw [read] at taken
    refine ⟨_, quiet_step header taken, ?_⟩
    rw [more]
    have small : f.payload.length < 256 ^ 8 := Nat.lt_of_lt_of_le fits (by decide)
    exact Stage.extended 7 (header_congr inHeader rfl rfl) rfl
      (Nat.div_eq_of_lt small).symm rfl rfl

theorem length_bound (f : ClientFrame) : f.payload.length < 2 ^ 63 := by
  have fits := f.fits
  cases form : f.form with
  | short | len16 =>
    rw [form] at fits
    exact Nat.lt_of_lt_of_le fits (by decide)
  | len63 =>
    rw [form] at fits
    exact fits

theorem ex_length_step (inHeader : InHeader f start p) (state : p.frame.state = .readExLength)
    {left : Nat} (siz : p.frame.siz = f.payload.length / 256 ^ (left + 1))
    (sizCnt : p.frame.sizCnt = left + 1) (maskCnt : p.frame.maskCnt = 0) :
    ∃ next, byteStep p (UInt8.ofNat (f.payload.length / 256 ^ left % 256)) = some next ∧
      Stage f start next (bigEndian left f.payload.length ++ (f.maskBytes ++ f.masked)) := by
  have header : p.frame.state ≠ .readPayload := by simp [state]
  have bound := length_bound f
  have value : (p.frame.siz * 256 +
      (UInt8.ofNat (f.payload.length / 256 ^ left % 256)).toNat) % 2 ^ 64 =
        f.payload.length / 256 ^ left := by
    have isByte : (UInt8.ofNat (f.payload.length / 256 ^ left % 256)).toNat =
        f.payload.length / 256 ^ left % 256 := by
      simp
    have upper : f.payload.length / 256 ^ (left + 1) = f.payload.length / 256 ^ left / 256 := by
      rw [Nat.pow_succ, Nat.div_div_eq_div_mul]
    have small : f.payload.length / 256 ^ left ≤ f.payload.length := Nat.div_le_self _ _
    rw [isByte, siz, upper]
    omega
  have taken : frameByte p.frame (UInt8.ofNat (f.payload.length / 256 ^ left % 256)) =
      (exLengthByte p.frame (UInt8.ofNat (f.payload.length / 256 ^ left % 256))).map
        fun f => (f, false) := by
    rw [frameByte, state]
  rw [exLengthByte, value, sizCnt] at taken
  dsimp only at taken
  cases left with
  | zero =>
    have allowed : ¬ (p.frame.type = .ping ∧ f.payload.length / 256 ^ 0 > bufMax) := by
      intro both
      have short := f.pingFits (typed_ping inHeader.typed both.1)
      omega
    rw [if_pos (by decide), if_neg allowed] at taken
    refine ⟨_, quiet_step header taken, ?_⟩
    exact Stage.mask 0 (by decide) (header_congr inHeader rfl rfl) rfl (Nat.div_one _) maskCnt
      (by simp)
  | succ left =>
    rw [if_neg (by push_cast; omega)] at taken
    refine ⟨_, quiet_step header taken, ?_⟩
    exact Stage.extended left (header_congr inHeader rfl rfl) state rfl (by push_cast; omega) maskCnt

theorem mask_kept (below : k < 4)
    (known : ∀ i : Fin 4, i.val < k → mask i = f.mask i) (i : Fin 4) (upTo : i.val < k + 1) :
    update mask k (f.mask ⟨k, below⟩) i = f.mask i := by
  by_cases isLast : i.val = k
  · subst isLast
    rw [update_self]
  · rw [update_of_ne isLast]
    exact known i (by omega)

theorem mask_step (below : k < 4) (inHeader : InHeader f start p)
    (state : p.frame.state = .readMask) (siz : p.frame.siz = f.payload.length)
    (maskCnt : p.frame.maskCnt = k)
    (known : ∀ i : Fin 4, i.val < k → p.frame.mask i = f.mask i) :
    ∃ next, byteStep p (f.mask ⟨k, below⟩) = some next ∧
      Stage f start next (f.maskBytes.drop (k + 1) ++ f.masked) := by
  have header : p.frame.state ≠ .readPayload := by simp [state]
  have taken : frameByte p.frame (f.mask ⟨k, below⟩) = .ok (maskByte p.frame (f.mask ⟨k, below⟩)) := by
    rw [frameByte, state]
  rw [maskByte, maskCnt] at taken
  dsimp only at taken
  have kept := mask_kept below known
  by_cases isLast : k = 3
  · have noMore : f.maskBytes.drop (k + 1) = [] := by
      rw [isLast]
      rfl
    have all : ∀ i : Fin 4, update p.frame.mask k (f.mask ⟨k, below⟩) i = f.mask i :=
      fun i => kept i (by omega)
    rw [if_pos (show k + 1 ≥ maskCount by rw [isLast]; decide)] at taken
    rw [noMore, nil_append]
    by_cases isEmpty : f.payload.length = 0
    · have noPayload : f.payload = [] := length_eq_zero_iff.1 isEmpty
      have noBody : f.masked = [] := by rw [ClientFrame.masked, noPayload, mapIdx_nil]
      rw [step_header header, headerByte, taken, noBody]
      dsimp only
      rw [siz, if_pos isEmpty]
      refine ⟨_, rfl, Stage.complete ⟨rfl, inHeader.held, inHeader.before, typed_known inHeader.typed⟩
        ?_ ?_⟩
      · rw [ClientFrame.data, noPayload, ite_self, append_nil]
        exact inHeader.data
      · rw [ClientFrame.pongs, noPayload]
        dsimp only
        rw [inHeader.sends]
        by_cases isPing : f.kind = .ping
        · have isType : p.frame.type = .ping := by
            have typed := inHeader.typed
            rw [isPing] at typed
            exact typed
          simp [isPing, isType]
        · have notType : p.frame.type ≠ .ping := fun isType =>
            isPing (typed_ping inHeader.typed isType)
          simp [isPing, notType]
    · have silent : decide (p.frame.type = .ping ∧ p.frame.siz = 0) = false := by
        rw [siz]
        simp [isEmpty]
      rw [silent, siz, if_neg isEmpty] at taken
      refine ⟨_, quiet_step header taken, ?_⟩
      exact Stage.body 0 (Nat.pos_of_ne_zero isEmpty) (typed_congr rfl inHeader.typed)
        inHeader.before rfl rfl all (by simp) (by simpa using inHeader.held)
        (by simpa using inHeader.data) inHeader.sends
  · rw [if_neg (show ¬ k + 1 ≥ maskCount by unfold maskCount; omega)] at taken
    refine ⟨_, quiet_step header taken, ?_⟩
    exact Stage.mask (k + 1) (by omega) (header_congr inHeader rfl rfl) state siz rfl kept

theorem masked_length (f : ClientFrame) : f.masked.length = f.payload.length :=
  length_mapIdx

theorem unmask_masked (known : ∀ i : Fin 4, mask i = f.mask i)
    (payload : Bytes) (k : Nat) : (unmaskPayload mask (k % 4)
      (payload.mapIdx fun i b => b ^^^ ClientFrame.maskAt f.mask (k + i))).1 = payload := by
  induction payload generalizing k with
  | nil => rfl
  | cons b rest ih =>
    have isMask : mask (k % 4) = ClientFrame.maskAt f.mask k := known ⟨k % 4, _⟩
    have next : (k % 4 + 1) % 4 = (k + 1) % 4 := Nat.mod_add_mod k 4 1
    have others : (fun i (b : Byte) => b ^^^ ClientFrame.maskAt f.mask (k + (i + 1))) =
        fun i b => b ^^^ ClientFrame.maskAt f.mask (k + 1 + i) := by
      funext i b
      rw [Nat.add_right_comm, Nat.add_assoc]
    rw [mapIdx_cons, unmaskPayload, next, others, ih, Nat.add_zero, isMask,
      UInt8.xor_assoc, UInt8.xor_self, UInt8.xor_zero]

theorem masked_get (below : k < f.payload.length) :
    f.masked[k]? = some (f.payload[k] ^^^ ClientFrame.maskAt f.mask k) := by
  rw [ClientFrame.masked, getElem?_mapIdx, getElem?_eq_getElem below, Option.map_some]

theorem count_last (last : frame.siz ≤ 1) : (countBytes frame 1).state = .init := by
  rw [countBytes, if_pos last]

theorem body_next {next : Progress} (below : k < f.payload.length) (typed : Typed f.kind next.frame)
    (before : next.frame.typeBefore = .text ∨ next.frame.typeBefore = .bin)
    (state : next.frame.state = if k + 1 < f.payload.length then .readPayload else .init)
    (siz : next.frame.siz = f.payload.length - (k + 1)) (known : ∀ i : Fin 4, next.frame.mask i = f.mask i)
    (maskCnt : k + 1 < f.payload.length → next.frame.maskCnt = if f.kind.carriesData then (k + 1) % 4 else 0)
    (held : next.held =
      if f.kind = .ping ∧ k + 1 < f.payload.length then f.masked.take (k + 1) else []) (data : next.data =
      start.data ++ (if f.kind.carriesData then f.payload.take (k + 1) else [])) (sends : next.sends =
      start.sends ++ (if k + 1 < f.payload.length then [] else f.pongs)) :
    Stage f start next (f.masked.drop (k + 1)) := by
  by_cases more : k + 1 < f.payload.length
  · rw [if_pos more] at state sends
    refine Stage.body (k + 1) more typed before state siz known (maskCnt more) ?_ data ?_
    · rw [held]
      simp [more]
    · rw [sends, append_nil]
  · have all : f.payload.take (k + 1) = f.payload := take_of_length_le (by omega)
    have noMore : f.masked.drop (k + 1) = [] := drop_eq_nil_of_le (by rw [masked_length]; omega)
    rw [if_neg more] at state sends
    rw [noMore]
    refine Stage.complete ⟨state, ?_, before, typed_known typed⟩ ?_ sends
    · rw [held]
      simp [more]
    · rw [data, all, ClientFrame.data]

theorem body_step (below : k < f.payload.length) (typed : Typed f.kind p.frame)
    (before : p.frame.typeBefore = .text ∨ p.frame.typeBefore = .bin)
    (state : p.frame.state = .readPayload) (siz : p.frame.siz = f.payload.length - k)
    (known : ∀ i : Fin 4, p.frame.mask i = f.mask i)
    (maskCnt : p.frame.maskCnt = (if f.kind.carriesData then k % 4 else 0))
    (held : p.held = (if f.kind = .ping then f.masked.take k else []))
    (data : p.data = start.data ++ (if f.kind.carriesData then f.payload.take k else []))
    (sends : p.sends = start.sends) :
    ∃ next, byteStep p (f.payload[k] ^^^ ClientFrame.maskAt f.mask k) = some next ∧
      Stage f start next (f.masked.drop (k + 1)) := by
  obtain ⟨sameType, sameBefore, sameMask, sameCnt⟩ := count_type p.frame 1
  have countedSiz : (countBytes p.frame 1).siz = f.payload.length - (k + 1) := by
    rw [count_siz, siz, Nat.sub_sub]
  have countedState : (countBytes p.frame 1).state =
      if k + 1 < f.payload.length then .readPayload else .init := by
    split
    next more => exact (count_state (by omega)).trans state
    next last => exact count_last (by omega)
  have countedMask : ∀ i : Fin 4, (countBytes p.frame 1).mask i = f.mask i := by
    intro i
    rw [sameMask]
    exact known i
  have countedTyped : Typed f.kind (countBytes p.frame 1) := typed_congr sameType typed
  have countedBefore : (countBytes p.frame 1).typeBefore = .text ∨
      (countBytes p.frame 1).typeBefore = .bin := by
    rw [sameBefore]
    exact before
  have notPing : f.kind ≠ .ping → (if k + 1 < f.payload.length then [] else f.pongs) = [] := by
    intro other
    rw [ClientFrame.pongs, if_neg other, ite_self]
  have forwards : f.kind.carriesData → f.kind ≠ .ping →
      (p.frame.type = .text ∨ p.frame.type = .bin) →
      ∃ next, payloadByte p (f.payload[k] ^^^ ClientFrame.maskAt f.mask k) = some next ∧
        Stage f start next (f.masked.drop (k + 1)) := by
    intro carries other isType
    rw [if_pos carries] at maskCnt data
    have isMask : p.frame.mask p.frame.maskCnt = ClientFrame.maskAt f.mask k := by
      rw [maskCnt]
      exact known ⟨k % 4, _⟩
    have taken : payloadByte p (f.payload[k] ^^^ ClientFrame.maskAt f.mask k) = some { p with
        frame := setCnt (countBytes p.frame 1) ((p.frame.maskCnt + 1) % 4)
        data := p.data ++ [f.payload[k]] } := by
      have plain : f.payload[k] ^^^ ClientFrame.maskAt f.mask k ^^^ ClientFrame.maskAt f.mask k =
          f.payload[k] := by
        rw [UInt8.xor_assoc, UInt8.xor_self, UInt8.xor_zero]
      rw [payloadByte, isMask, plain]
      rcases isType with isText | isBin
      · rw [isText]
      · rw [isBin]
    refine ⟨_, taken, body_next below (typed_congr rfl countedTyped) countedBefore countedState
      countedSiz countedMask ?_ ?_ ?_ ?_⟩
    · intro _
      rw [if_pos carries]
      dsimp only [setCnt]
      rw [maskCnt, Nat.mod_add_mod]
    · simp [other, held]
    · rw [if_pos carries]
      rw [data, append_assoc, take_add_one, getElem?_eq_getElem below, Option.toList_some]
    · rw [notPing other, append_nil]
      exact sends
  rw [step_payload state]
  cases kind : f.kind with
  | ping =>
    have isType : p.frame.type = .ping := by
      rw [kind] at typed
      exact typed
    have carries : f.kind.carriesData = false := by rw [kind]; rfl
    rw [if_pos kind] at held
    rw [carries] at maskCnt data
    rw [payloadByte, isType]
    dsimp only
    have heldNext : p.held ++ [f.payload[k] ^^^ ClientFrame.maskAt f.mask k] = f.masked.take (k + 1) := by
      rw [held, take_add_one, masked_get below, Option.toList_some]
    rw [heldNext]
    by_cases more : k + 1 < f.payload.length
    · rw [if_neg (by omega)]
      refine ⟨_, rfl, body_next below countedTyped countedBefore countedState countedSiz countedMask
        ?_ ?_ ?_ ?_⟩
      · intro _
        rw [carries]
        exact sameCnt.trans maskCnt
      · rw [if_pos ⟨kind, more⟩]
      · rw [carries]
        exact data
      · rw [if_pos more, append_nil]
        exact sends
    · have all : f.masked.take (k + 1) = f.masked :=
        take_of_length_le (by rw [masked_length]; omega)
      have unmasked : (unmaskPayload p.frame.mask p.frame.maskCnt f.masked).1 = f.payload := by
        have whole := unmask_masked known f.payload 0
        simp only [Nat.zero_mod, Nat.zero_add] at whole
        rw [maskCnt]
        exact whole
      rw [if_pos (by omega), all, unmasked]
      refine ⟨_, rfl, body_next below countedTyped countedBefore countedState countedSiz countedMask
        ?_ ?_ ?_ ?_⟩
      · intro isMore
        exact absurd isMore more
      · simp [more]
      · rw [carries]
        exact data
      · rw [if_neg more, ClientFrame.pongs, if_pos kind, ← sends]
  | pong =>
    have isType : p.frame.type = .pong := by
      rw [kind] at typed
      exact typed
    have carries : f.kind.carriesData = false := by rw [kind]; rfl
    have other : f.kind ≠ .ping := by simp [kind]
    rw [carries] at maskCnt data
    rw [payloadByte, isType]
    refine ⟨_, rfl, body_next below countedTyped countedBefore countedState countedSiz countedMask
      ?_ ?_ ?_ ?_⟩
    · intro _
      rw [carries]
      exact sameCnt.trans maskCnt
    · simp [other, held]
    · rw [carries]
      exact data
    · rw [notPing other, append_nil]
      exact sends
  | text | bin | cont =>
    rw [kind] at typed
    exact forwards (by rw [kind]; rfl) (by simp [kind]) typed

theorem stage_step (stage : Stage f start p bytes) (isCons : bytes = b :: rest) :
    ∃ next, byteStep p b = some next ∧ Stage f start next rest := by
  cases stage with
  | first idle data sends =>
    cases isCons
    obtain ⟨next, taken, typed, before, state, held, sameData, sameSends⟩ :=
      init_step idle f.flags f.kind
    exact ⟨next, taken, Stage.second ⟨typed, before, held.trans idle.held, sameData.trans data,
      sameSends.trans sends⟩ state⟩
  | second inHeader state =>
    cases isCons
    exact length_step inHeader state
  | extended left inHeader state siz sizCnt maskCnt =>
    cases isCons
    exact ex_length_step inHeader state siz sizCnt maskCnt
  | mask k below inHeader state siz maskCnt known =>
    have parts : f.maskBytes.drop k = f.mask ⟨k, below⟩ :: f.maskBytes.drop (k + 1) := by
      match k, below with
      | 0, _ => rfl
      | 1, _ => rfl
      | 2, _ => rfl
      | 3, _ => rfl
    rw [parts, cons_append] at isCons
    cases isCons
    exact mask_step below inHeader state siz maskCnt known
  | body k below typed before state siz known maskCnt held data sends =>
    have parts : f.masked.drop k =
        (f.payload[k] ^^^ ClientFrame.maskAt f.mask k) :: f.masked.drop (k + 1) := by
      have bound : k < f.masked.length := by
        rw [masked_length]
        exact below
      have isByte := masked_get below
      rw [getElem?_eq_getElem bound] at isByte
      rw [drop_eq_getElem_cons bound, Option.some.inj isByte]
    rw [parts] at isCons
    cases isCons
    exact body_step below typed before state siz known maskCnt held data sends
  | complete idle data sends => cases isCons

theorem stage_feed (stage : Stage f start p (bytes ++ rest)) :
    ∃ next, feed byteStep p bytes = (next, false) ∧ Stage f start next rest := by
  induction bytes generalizing p with
  | nil => exact ⟨p, rfl, stage⟩
  | cons b bytes ih =>
    obtain ⟨middle, taken, stage⟩ := stage_step stage rfl
    obtain ⟨next, isFed, stage⟩ := ih stage
    exact ⟨next, (feed_cons taken bytes).trans isFed, stage⟩

theorem stage_end (stage : Stage f start p bytes) (isNil : bytes = []) :
    Idle p ∧ p.data = start.data ++ f.data ∧ p.sends = start.sends ++ f.pongs := by
  cases stage with
  | first idle data sends => cases isNil
  | second inHeader state => cases isNil
  | extended left inHeader state siz sizCnt maskCnt => cases isNil
  | mask k below inHeader state siz maskCnt known =>
    have length := congrArg List.length isNil
    rw [length_append, length_drop, length_nil] at length
    have four : f.maskBytes.length = 4 := rfl
    omega
  | body k below typed before state siz known maskCnt held data sends =>
    have length := congrArg List.length isNil
    rw [length_drop, masked_length, length_nil] at length
    omega
  | complete idle data sends => exact ⟨idle, data, sends⟩

theorem stage_left (stage : Stage f start p bytes) (some_left : bytes ≠ []) :
    p.data = start.data ++ f.data.take (f.payload.length - bytes.length) ∧ p.sends = start.sends := by
  have nothing : ∀ n, f.payload.length ≤ n → p.data = start.data →
      p.data = start.data ++ f.data.take (f.payload.length - n) := by
    intro n long same
    rw [Nat.sub_eq_zero_of_le long, take_zero, append_nil]
    exact same
  cases stage with
  | first idle data sends =>
    refine ⟨nothing _ ?_ data, sends⟩
    simp only [ClientFrame.encode, length_cons, length_append, masked_length]
    omega
  | second inHeader state =>
    refine ⟨nothing _ ?_ inHeader.data, inHeader.sends⟩
    simp only [length_cons, length_append, masked_length]
    omega
  | extended left inHeader state siz sizCnt maskCnt | mask k below inHeader state siz maskCnt known =>
    refine ⟨nothing _ ?_ inHeader.data, inHeader.sends⟩
    simp only [length_append, masked_length]
    omega
  | body k below typed before state siz known maskCnt held data sends =>
    refine ⟨?_, sends⟩
    rw [length_drop, masked_length, Nat.sub_sub_self (Nat.le_of_lt below), data, ClientFrame.data]
    split
    · rfl
    · rw [take_nil]
  | complete idle data sends => cases some_left rfl

end Steps

def encodeAll (frames : List ClientFrame) : Bytes := frames.flatMap ClientFrame.encode

/-- The data in the first `n` bytes of these frames. -/
def dataUpTo : List ClientFrame → Nat → Bytes
  | [], _ => []
  | f :: frames, n =>
    if n < f.encode.length then f.data.take (f.payload.length - (f.encode.length - n))
    else f.data ++ dataUpTo frames (n - f.encode.length)

/-- The PONGs for the PINGs that are complete within `n` bytes. -/
def pongsUpTo : List ClientFrame → Nat → List (FrameType × Bytes)
  | [], _ => []
  | f :: frames, n =>
    if n < f.encode.length then [] else f.pongs ++ pongsUpTo frames (n - f.encode.length)

theorem data_up_to_all (frames : List ClientFrame) {n : Nat} (all : (encodeAll frames).length ≤ n) :
    dataUpTo frames n = frames.flatMap ClientFrame.data := by
  induction frames generalizing n with
  | nil => rfl
  | cons f frames ih =>
    rw [encodeAll, flatMap_cons, length_append] at all
    rw [dataUpTo, if_neg (by omega), flatMap_cons, ih]
    rw [encodeAll]
    omega

theorem pongs_up_to_all (frames : List ClientFrame) {n : Nat}
    (all : (encodeAll frames).length ≤ n) : pongsUpTo frames n = frames.flatMap ClientFrame.pongs := by
  induction frames generalizing n with
  | nil => rfl
  | cons f frames ih =>
    rw [encodeAll, flatMap_cons, length_append] at all
    rw [pongsUpTo, if_neg (by omega), flatMap_cons, ih]
    rw [encodeAll]
    omega

theorem frames_feed (frames : List ClientFrame) {p : Progress} (idle : Idle p) {n : Nat}
    (within : n ≤ (encodeAll frames).length) :
    ∃ next, feed byteStep p ((encodeAll frames).take n) = (next, false) ∧
      next.data = p.data ++ dataUpTo frames n ∧ next.sends = p.sends ++ pongsUpTo frames n ∧
      (n = (encodeAll frames).length → Idle next) := by
  induction frames generalizing p n with
  | nil =>
    have isNil : (encodeAll []).take n = [] := take_nil
    rw [isNil]
    exact ⟨p, rfl, (append_nil _).symm, (append_nil _).symm, fun _ => idle⟩
  | cons f frames ih =>
    have parts : encodeAll (f :: frames) = f.encode ++ encodeAll frames := flatMap_cons
    have stage : Stage f p p f.encode := Stage.first idle rfl rfl
    rw [parts] at within ⊢
    rw [length_append] at within ⊢
    rw [dataUpTo, pongsUpTo]
    by_cases inside : n < f.encode.length
    · have split : f.encode.take n ++ f.encode.drop n = f.encode := take_append_drop n f.encode
      rw [← split] at stage
      obtain ⟨next, isFed, stage⟩ := stage_feed stage
      have some_left : f.encode.drop n ≠ [] := by
        apply ne_nil_of_length_pos
        rw [length_drop]
        omega
      obtain ⟨data, sends⟩ := stage_left stage some_left
      rw [length_drop] at data
      rw [take_append_of_le_length (Nat.le_of_lt inside), if_pos inside, if_pos inside]
      exact ⟨next, isFed, data, sends.trans (append_nil _).symm, fun all => absurd all (by omega)⟩
    · rw [← append_nil f.encode] at stage
      obtain ⟨middle, isFed, stage⟩ := stage_feed stage
      obtain ⟨middleIdle, data, sends⟩ := stage_end stage rfl
      obtain ⟨next, restFed, restData, restSends, restIdle⟩ :=
        @ih middle middleIdle (n - f.encode.length) (by omega)
      have front : (f.encode ++ encodeAll frames).take n =
          f.encode ++ (encodeAll frames).take (n - f.encode.length) := by
        rw [take_append, take_of_length_le (by omega)]
      rw [front, if_neg inside, if_neg inside, feed_append isFed]
      refine ⟨next, restFed, ?_, ?_, fun all => restIdle (by omega)⟩
      · rw [restData, data, append_assoc]
      · rw [restSends, sends, append_assoc]

end ServerCore.LighttpdWstunnelFrames
