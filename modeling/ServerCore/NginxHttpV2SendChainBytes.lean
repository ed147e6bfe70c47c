import ServerCore.NginxHttpV2SendChain
import Mathlib.Algebra.BigOperators.Group.List.Basic
import Mathlib.Data.List.ReduceOption

/-!
# The bytes of DATA frames

What a call queues and what it returns are the contents of its chain, cut at the
frames: the bytes, and the ends of the buffers with `last_buf` among them. Each
frame takes whole buffers and then a part of the next one, without its end.
-/

namespace ServerCore.NginxHttpV2SendChainBytes

open NginxHttpV2SendChain List

variable {offset : Nat}

variable {chain : List Link}

def slice (source : Nat → Byte) (start stop : Nat) : Bytes :=
  (List.range (stop - start)).map fun k => source (start + k)

theorem slice_length (source : Nat → Byte) (start stop : Nat) :
    (slice source start stop).length = stop - start := by
  simp [slice]

theorem slice_part (source : Nat → Byte) {start stop offset size : Nat}
    (inside : offset + size ≤ stop - start) : slice source (start + offset) (start + offset + size) =
      ((slice source start stop).drop offset).take size := by
  apply ext_getElem
  · simp only [slice_length, length_take, length_drop]
    omega
  · intro k _ _
    simp [slice, add_assoc]

theorem slice_end {source : Nat → Byte} {start stop from_ upTo : Nat} (after : start ≤ from_)
    (before : from_ ≤ upTo) (same : upTo = stop) :
    (slice source start stop).drop (from_ - start) = slice source from_ upTo := by
  have part := @slice_part source start stop (from_ - start) (upTo - from_) (by omega)
  rw [show start + (from_ - start) = from_ by omega, show from_ + (upTo - from_) = upTo by omega] at part
  rw [part, take_of_length_le]
  simp only [length_drop, slice_length]
  omega

section Chains

variable (memory : Nat → Byte) (files : Nat → Nat → Byte)

def bufBytes (buf : Buf) : Bytes :=
  if buf.inMemory then slice memory buf.pos buf.last
  else slice (files buf.file) buf.filePos buf.fileLast

def chainBytes (chain : List Link) : Bytes := chain.flatMap fun link => bufBytes memory files link.buf

theorem buf_bytes_length (buf : Buf) : (bufBytes memory files buf).length = bufSize buf := by
  unfold bufBytes bufSize
  split_ifs <;> exact slice_length ..

theorem chain_bytes_cons (link : Link) (chain : List Link) : chainBytes memory files (link :: chain) =
      bufBytes memory files link.buf ++ chainBytes memory files chain := rfl

theorem chain_bytes_append (left right : List Link) : chainBytes memory files (left ++ right) =
      chainBytes memory files left ++ chainBytes memory files right := by
  simp [chainBytes]

/-- The bytes and, if it has `last_buf`, the end. -/
def bufContents (buf : Buf) : List (Option Byte) :=
  (bufBytes memory files buf).map some ++ if buf.lastBuf then [none] else []

def contents (chain : List Link) : List (Option Byte) :=
  chain.flatMap fun link => bufContents memory files link.buf

theorem contents_cons (link : Link) (chain : List Link) : contents memory files (link :: chain) =
      bufContents memory files link.buf ++ contents memory files chain := rfl

theorem contents_append (left right : List Link) : contents memory files (left ++ right) =
      contents memory files left ++ contents memory files right := by
  simp [contents]

theorem contents_bytes (chain : List Link) :
    (contents memory files chain).reduceOption = chainBytes memory files chain := by
  induction chain with
  | nil => rfl
  | cons link rest ih =>
    have bytes (list : Bytes) : (list.map some).reduceOption = list := by
      rw [reduceOption, filterMap_map]
      exact filterMap_some
    rw [contents_cons, chain_bytes_cons, reduceOption_append, ih, bufContents, reduceOption_append, bytes]
    split_ifs <;> simp

theorem none_in_contents (chain : List Link) :
    none ∈ contents memory files chain ↔ ∃ link ∈ chain, link.buf.lastBuf = true := by
  simp [contents, bufContents, mem_flatMap]

def Held (buf : Buf) : Prop := buf.inMemory = true ∨ buf.inFile = true ∨ bufSize buf = 0

variable {memory files}

section

variable {buf : Buf} {offset size : Nat} (held : Held buf) (inside : offset + size ≤ bufSize buf)
include held inside

theorem get_shadow_size : bufSize (getShadow buf offset size).buf = size := by
  unfold bufSize at inside ⊢
  unfold getShadow
  cases inMemory : buf.inMemory with
  | true => simp
  | false =>
    cases inFile : buf.inFile with
    | true => simp
    | false =>
      have empty : buf.fileLast - buf.filePos = 0 := by
        simpa [Held, inMemory, inFile, bufSize] using held
      simp only [inMemory, Bool.false_eq_true, if_false] at inside ⊢
      omega

theorem get_shadow_bytes : bufBytes memory files (getShadow buf offset size).buf =
      ((bufBytes memory files buf).drop offset).take size := by
  unfold bufSize at inside
  unfold bufBytes getShadow
  cases inMemory : buf.inMemory with
  | true =>
    simp only [inMemory, if_true] at inside ⊢
    exact slice_part memory inside
  | false =>
    simp only [inMemory, Bool.false_eq_true, if_false] at inside ⊢
    cases inFile : buf.inFile with
    | true =>
      exact slice_part (files buf.file) inside
    | false =>
      have empty : buf.fileLast - buf.filePos = 0 := by
        simpa [Held, inMemory, inFile, bufSize] using held
      have none : slice (files buf.file) buf.filePos buf.fileLast = [] := by
        apply eq_nil_of_length_eq_zero
        rw [slice_length, empty]
      simp [none]

theorem get_shadow_held : Held (getShadow buf offset size).buf := by
  unfold Held at held ⊢
  rw [get_shadow_size held inside]
  rcases held with inMemory | inFile | empty
  · exact .inl inMemory
  · exact .inr (.inl inFile)
  · exact .inr (.inr (by omega))

end

structure ShadowOf (chunk buf : Buf) : Prop where
  memory : chunk.inMemory = buf.inMemory
  file : chunk.file = buf.file
  held : Held buf
  lastBuf : chunk.lastBuf = buf.lastBuf
  inside : if buf.inMemory then buf.pos ≤ chunk.pos ∧ chunk.pos ≤ chunk.last ∧ chunk.last = buf.last
    else buf.filePos ≤ chunk.filePos ∧ chunk.filePos ≤ chunk.fileLast ∧ chunk.fileLast = buf.fileLast

/-- The links of a chain that the function is called with, or returns. -/
def WellShadowed (chain : List Link) : Prop :=
  ∀ link ∈ chain, Held link.buf ∧ ∀ buf, link.shadow = some buf → ShadowOf link.buf buf

theorem restore_first {link : Link} (held : Held link.buf)
    (shadow : ∀ buf, link.shadow = some buf → ShadowOf link.buf buf) :
    (restoreFirst link).2 + bufSize link.buf = bufSize (restoreFirst link).1.buf ∧
      (bufBytes memory files (restoreFirst link).1.buf).drop (restoreFirst link).2 =
        bufBytes memory files link.buf ∧
      Held (restoreFirst link).1.buf ∧ (restoreFirst link).1.buf.lastBuf = link.buf.lastBuf ∧
      ∀ buf, (restoreFirst link).1.shadow = some buf → ShadowOf (restoreFirst link).1.buf buf := by
  unfold restoreFirst
  cases isShadow : link.shadow with
  | none =>
    refine ⟨zero_add _, rfl, held, rfl, ?_⟩
    intro buf same
    exact shadow buf same
  | some buf =>
    obtain ⟨sameMemory, sameFile, bufHeld, sameLast, inside⟩ := shadow buf isShadow
    dsimp only
    refine ⟨?_, ?_, bufHeld, sameLast.symm, by simp⟩
    · unfold bufSize
      rw [sameMemory]
      split_ifs at inside ⊢ <;> omega
    · unfold bufBytes
      rw [sameMemory, sameFile]
      split_ifs at inside ⊢ with inMemory
      · exact slice_end inside.1 inside.2.1 inside.2.2
      · exact slice_end inside.1 inside.2.1 inside.2.2

/-- The place of the next byte in a chain: `size` bytes of the first buffer are
left, from `offset` on. -/
def At (chain : List Link) (offset size : Nat) : Prop :=
  match chain with
  | [] => offset = 0
  | link :: _ => offset + size = bufSize link.buf

def left (memory : Nat → Byte) (files : Nat → Nat → Byte) (chain : List Link) (offset : Nat) :
    List (Option Byte) := (contents memory files chain).drop offset

theorem buf_contents_drop {buf : Buf} (inside : offset ≤ bufSize buf) :
    (bufContents memory files buf).drop offset =
      ((bufBytes memory files buf).drop offset).map some ++ if buf.lastBuf then [none] else [] := by
  unfold bufContents
  rw [drop_append_of_le_length (by rwa [length_map, buf_bytes_length]), map_drop]

theorem left_cons {link : Link} {next : List Link} (inside : offset ≤ bufSize link.buf) :
    left memory files (link :: next) offset = ((bufBytes memory files link.buf).drop offset).map some ++
      ((if link.buf.lastBuf then [none] else []) ++ contents memory files next) := by
  have whole : offset ≤ (bufContents memory files link.buf).length := by
    unfold bufContents
    rw [length_append, length_map, buf_bytes_length]
    exact Nat.le_add_right_of_le inside
  unfold left
  rw [contents_cons, drop_append_of_le_length whole, buf_contents_drop inside, append_assoc]

theorem whole_rest {link : Link} {offset size : Nat} (held : Held link.buf)
    (at_ : offset + size = bufSize link.buf) :
    bufContents memory files (if offset ≠ 0 then getShadow link.buf offset size else link).buf =
        (bufContents memory files link.buf).drop offset ∧
      bufSize (if offset ≠ 0 then getShadow link.buf offset size else link).buf = size := by
  by_cases whole : offset = 0
  · subst whole
    exact ⟨rfl, (Nat.zero_add size).symm.trans at_ |>.symm⟩
  · rw [if_pos whole]
    refine ⟨?_, get_shadow_size held (Nat.le_of_eq at_)⟩
    rw [buf_contents_drop (by omega), bufContents, get_shadow_bytes held (Nat.le_of_eq at_),
      take_of_length_le]
    · rfl
    · rw [length_drop, buf_bytes_length]
      omega

structure Fills (memory : Nat → Byte) (files : Nat → Nat → Byte) (rest offset : Nat) (chain : List Link)
    (filled : Filled) : Prop where
  kept : contents memory files filled.out ++ left memory files filled.chain filled.offset =
    left memory files chain offset
  length : (chainBytes memory files filled.out).length + filled.rest + filled.unused = rest
  at_ : At filled.chain filled.offset filled.size
  suffix : filled.chain <:+ chain
  done : filled.chain = [] → filled.rest = 0
  more : filled.chain ≠ [] → filled.unused = 0 ∧ filled.rest < filled.size

theorem fill_frame (held : ∀ link ∈ chain, Held link.buf) (some_ : chain ≠ []) :
    ∀ {rest size offset : Nat}, At chain offset size →
      Fills memory files rest offset chain (fillFrame rest size offset chain) := by
  induction chain with
  | nil => cases some_ rfl
  | cons link next ih =>
    intro rest size offset at_
    have linkHeld := held link mem_cons_self
    have total : offset + size = bufSize link.buf := at_
    have split : left memory files (link :: next) offset =
        (bufContents memory files link.buf).drop offset ++ contents memory files next := by
      rw [left_cons (by omega), buf_contents_drop (by omega), append_assoc]
    obtain ⟨taken, isSize⟩ := @whole_rest memory files link offset size linkHeld total
    rw [fillFrame.eq_def]
    dsimp only
    generalize (if offset ≠ 0 then getShadow link.buf offset size else link) = cl at taken isSize ⊢
    have clLength : (bufBytes memory files cl.buf).length = size := (buf_bytes_length ..).trans isSize
    by_cases fits : rest ≥ size
    · rw [if_pos fits]
      cases next with
      | nil =>
        refine ⟨?_, ?_, rfl, nil_suffix, fun _ => rfl, absurd rfl⟩
        · rw [split, ← taken]
          simp [left, contents]
        · simp only [chainBytes, flatMap_cons, flatMap_nil, append_nil]
          omega
      | cons first more =>
        have tail := @ih (fun other isOther => held other (mem_cons_of_mem _ isOther))
          (cons_ne_nil _ _) (rest - size) (bufSize first.buf) 0 (zero_add _)
        refine ⟨?_, ?_, tail.at_, tail.suffix.trans (suffix_cons ..), tail.done, tail.more⟩
        · have kept := tail.kept
          rw [split, ← taken, contents_cons, append_assoc, kept]
          rfl
        · have length := tail.length
          dsimp only
          rw [chain_bytes_cons, length_append, clLength]
          omega
    · rw [if_neg fits]
      exact ⟨rfl, zero_add _, at_, suffix_refl _, fun none => absurd none (cons_ne_nil _ _),
        fun _ => ⟨rfl, by
          show rest < size
          omega⟩⟩

/-- What a frame holds: a part of a buffer does not have its end. -/
structure Cuts (memory : Nat → Byte) (files : Nat → Nat → Byte) (rest offset : Nat) (chain : List Link)
    (filled : Filled) : Prop where
  kept : contents memory files filled.out ++ left memory files filled.chain filled.offset =
    left memory files chain offset
  length : (chainBytes memory files filled.out).length + filled.unused = rest
  at_ : At filled.chain filled.offset filled.size
  suffix : filled.chain <:+ chain
  more : filled.chain ≠ [] → filled.unused = 0 ∧ 0 < filled.size

theorem cut_buffer {rest : Nat} {filled : Filled}
    (held : ∀ link ∈ chain, Held link.buf) (fills : Fills memory files rest offset chain filled) :
    Cuts memory files rest offset chain (cutBuffer filled) := by
  obtain ⟨kept, length, at_, suffix, done, more⟩ := fills
  obtain ⟨out, front, restLeft, unused, place, size⟩ := filled
  cases front with
  | nil =>
    have none : restLeft = 0 := done rfl
    subst none
    exact ⟨kept, length, at_, suffix, absurd rfl⟩
  | cons link next =>
    obtain ⟨unusedNone, inside⟩ := more (cons_ne_nil _ _)
    dsimp only at unusedNone inside kept length at_ suffix
    cases restLeft with
    | zero => exact ⟨kept, length, at_, suffix, fun _ => ⟨unusedNone, inside⟩⟩
    | succ restMore =>
      have linkHeld := held link (suffix.subset mem_cons_self)
      have total : place + size = bufSize link.buf := at_
      have part := @get_shadow_bytes memory files link.buf place (restMore + 1) linkHeld (by omega)
      have whole : (bufBytes memory files link.buf).length = place + size :=
        (buf_bytes_length ..).trans at_.symm
      unfold cutBuffer
      refine ⟨?_, ?_, ?_, suffix, fun _ => ⟨unusedNone, Nat.sub_pos_of_lt inside⟩⟩
      · have cutContents : contents memory files
            [{ getShadow link.buf place (restMore + 1) with
              buf := { (getShadow link.buf place (restMore + 1)).buf with
                flush := false, lastBuf := false } }] =
            (((bufBytes memory files link.buf).drop place).take (restMore + 1)).map some := by
          rw [← part, contents_cons]
          exact (append_nil _).trans (append_nil _)
        dsimp only
        rw [contents_append, cutContents, ← kept, append_assoc, left_cons (by omega), left_cons (by omega),
          ← append_assoc (map some _), ← map_append, ← drop_drop, take_append_drop]
      · have cutBytes : chainBytes memory files
            [{ getShadow link.buf place (restMore + 1) with
              buf := { (getShadow link.buf place (restMore + 1)).buf with
                flush := false, lastBuf := false } }] =
            ((bufBytes memory files link.buf).drop place).take (restMore + 1) := by
          rw [← part, chain_bytes_cons]
          exact append_nil _
        dsimp only
        rw [chain_bytes_append, cutBytes, length_append, length_take, length_drop, whole]
        omega
      · show place + (restMore + 1) + (size - (restMore + 1)) = bufSize link.buf
        omega

end Chains

end ServerCore.NginxHttpV2SendChainBytes
