import Mathlib.Algebra.GroupWithZero.Nat
import Mathlib.Algebra.Order.Group.Nat
import ServerCore.NginxHttpV2SendChainBytes

/-!
# The frame that ends a stream

A frame is given END_STREAM by its last buffer. It is right about the end of a
buffer with `last_buf` unless another buffer, or a part of one, comes behind it
in the frame, and where frames end depends on the sizes alone.
-/

namespace ServerCore.NginxHttpV2SendChainEnds

open NginxHttpV2SendChain NginxHttpV2SendChainBytes List

variable {first : Link} {chain : List Link}

/-- The last buffer has `last_buf` if any buffer does. -/
def LastEnds (bufs : List Link) : Prop :=
  (∃ link ∈ bufs, link.buf.lastBuf = true) → (bufs.getLast?.map fun link => link.buf.lastBuf) = some true

/-- `good` holds of the place where a buffer with `last_buf` ends and of the size of
the buffer behind it, if there is one; the chain begins at `start`. -/
def Followed (good : Nat → Nat → Prop) : Nat → List Link → Prop
  | start, link :: next :: more =>
    (link.buf.lastBuf = true → good (start + bufSize link.buf) (bufSize next.buf)) ∧
      Followed good (start + bufSize link.buf) (next :: more)
  | _, _ => True

/-- No frame takes the end of a buffer that ends at `place`, or one ends there: with
memory for `room` frames the call gets as far as `room * frameSize` or `limit`, and a
frame that is full goes on with a buffer of no bytes. -/
def EndsFrame (room limit frameSize place next : Nat) : Prop :=
  room = 0 ∨ room * frameSize < place ∨ limit < place ∨
    0 < next ∧ (place = limit ∨ 0 < place ∧ frameSize ∣ place)

section

variable {good good' : Nat → Nat → Prop} {link : Link} {chain rest : List Link} {start from_ : Nat}

theorem followed_cons {next : Link} : Followed good start (link :: next :: rest) ↔
    (link.buf.lastBuf = true → good (start + bufSize link.buf) (bufSize next.buf)) ∧
      Followed good (start + bufSize link.buf) (next :: rest) := Iff.rfl

theorem followed_congr (same : ∀ place, start + bufSize link.buf ≤ place →
    ∀ size, good place size ↔ good' place size) :
    Followed good start (link :: rest) ↔ Followed good' start (link :: rest) := by
  induction rest generalizing link start with
  | nil => rfl
  | cons next more ih =>
    apply and_congr
    · exact imp_congr_right fun _ => same _ le_rfl _
    · exact ih fun place above => same place (le_trans (Nat.le_add_right ..) above)

theorem followed_of (all : ∀ place, start + bufSize link.buf ≤ place → ∀ size, good place size) :
    Followed good start (link :: rest) := by
  induction rest generalizing link start with
  | nil => trivial
  | cons next more ih =>
    refine ⟨fun _ => all _ le_rfl _, ?_⟩
    exact ih fun place above => all place (le_trans (Nat.le_add_right ..) above)

theorem followed_shift :
    Followed good (start + from_) chain ↔ Followed (fun place => good (start + place)) from_ chain := by
  induction chain generalizing from_ with
  | nil => rfl
  | cons link rest ih =>
    cases rest with
    | nil => rfl
    | cons next more => rw [followed_cons, followed_cons, Nat.add_assoc, ih]

theorem followed_and : Followed (fun place size => good place size ∧ good' place size) start chain ↔
    Followed good start chain ∧ Followed good' start chain := by
  induction chain generalizing start with
  | nil => exact (and_self_iff).symm
  | cons link rest ih =>
    cases rest with
    | nil => exact (and_self_iff).symm
    | cons next more =>
      rw [followed_cons, followed_cons, followed_cons, ih, imp_and]
      exact and_and_and_comm

theorem followed_unmarked (none_ : ∀ link ∈ chain, link.buf.lastBuf = false) :
    Followed good start chain := by
  induction chain generalizing start with
  | nil => trivial
  | cons link rest ih =>
    cases rest with
    | nil => trivial
    | cons next more =>
      refine ⟨fun marked => ?_, ih fun other among => none_ other (mem_cons_of_mem _ among)⟩
      rw [none_ link mem_cons_self] at marked
      cases marked

theorem followed_skip : Followed good start (skipEmpty chain) ↔ Followed good start chain := by
  induction chain with
  | nil => rfl
  | cons link rest ih =>
    unfold skipEmpty
    split_ifs with sent
    · rfl
    · obtain ⟨empty, unmarked⟩ := not_or.mp sent
      rw [ih]
      cases rest with
      | nil => rfl
      | cons next more =>
        rw [followed_cons, not_ne_iff.mp empty]
        exact (and_iff_right fun marked => absurd marked unmarked).symm

end

theorem cut_buffer_cons (cl : Link) (tail : Filled) : cutBuffer { tail with out := cl :: tail.out } =
    { cutBuffer tail with out := cl :: (cutBuffer tail).out } := by
  obtain ⟨out, chain, rest, unused, offset, size⟩ := tail
  cases rest <;> cases chain <;> rfl

theorem cut_out_nil {rest size offset : Nat} {link : Link} {next : List Link} :
    (cutBuffer (fillFrame rest size offset (link :: next))).out = [] ↔ rest = 0 ∧ 0 < size := by
  rw [fillFrame.eq_def]
  dsimp only
  by_cases fits : rest ≥ size
  · rw [if_pos fits]
    have notNil : ∀ (cl : Link) (tail : Filled),
        (cutBuffer { tail with out := cl :: tail.out }).out ≠ [] := by
      intro cl tail
      rw [cut_buffer_cons]
      exact cons_ne_nil _ _
    constructor
    · intro isNil
      cases next with
      | nil => exact absurd isNil (cons_ne_nil _ _)
      | cons first more => exact absurd isNil (notNil _ _)
    · intro full
      omega
  · rw [if_neg fits]
    cases rest with
    | zero => exact ⟨fun _ => ⟨rfl, by omega⟩, fun _ => rfl⟩
    | succ rest => simp [cutBuffer]

/-- What a frame of `rest` bytes asks of the buffers with `last_buf`, and what is
left of that for the rest of the chain. -/
theorem frame_followed {rest size offset : Nat} {link : Link} {more : List Link}
    (at_ : offset + size = bufSize link.buf) (fits : size ≤ rest) :
    (Followed (fun place next => place - offset ≤ rest → place - offset = rest ∧ 0 < next) 0
        (link :: first :: more) ↔
      (link.buf.lastBuf = true → size = rest ∧ 0 < bufSize first.buf) ∧
        Followed (fun place next => place - 0 ≤ rest - size → place - 0 = rest - size ∧ 0 < next) 0
          (first :: more)) ∧ ∀ good : Nat → Nat → Prop,
      (Followed (fun place next => rest < place - offset → good (place - offset - rest) next) 0
        (link :: first :: more) ↔
      Followed (fun place next => rest - size < place - 0 → good (place - 0 - (rest - size)) next) 0
        (first :: more)) := by
  have isSize : 0 + bufSize link.buf - offset = size := by omega
  have moved : 0 + bufSize link.buf = bufSize link.buf + 0 := Nat.add_comm ..
  constructor
  · rw [followed_cons]
    apply and_congr
    · rw [isSize]
      exact imp_congr_right fun _ => ⟨fun all => all fits, fun all _ => all⟩
    · rw [moved, followed_shift]
      apply followed_congr
      omega
  · intro good
    rw [followed_cons, isSize, and_iff_right fun _ less => absurd fits (Nat.not_le_of_lt less),
      moved, followed_shift]
    apply followed_congr
    intro place _ next
    rw [show bufSize link.buf + place - offset - rest = place - 0 - (rest - size) by omega]
    apply imp_congr_left
    omega

theorem cut_marked {rest size offset : Nat} {cl : Link} (held : ∀ link ∈ chain, Held link.buf)
    (some_ : chain ≠ []) (at_ : At chain offset size)
    (among : cl ∈ (cutBuffer (fillFrame rest size offset chain)).out) (marked : cl.buf.lastBuf = true) :
    ∃ link ∈ chain, link.buf.lastBuf = true := by
  have kept := (cut_buffer held
    (@fill_frame chain (fun _ => 0) (fun _ _ => 0) held some_ rest size offset at_)).kept
  have isEnd : none ∈ left (fun _ => 0) (fun _ _ => 0) chain offset := by
    rw [← kept]
    exact mem_append_left _ ((none_in_contents _ _ _).mpr ⟨cl, among, marked⟩)
  exact (none_in_contents _ _ _).mp (mem_of_mem_drop isEnd)

theorem frame_ends (held : ∀ link ∈ chain, Held link.buf) :
    ∀ {rest size offset : Nat}, At chain offset size →
    (Followed (fun place next => place - offset ≤ rest → place - offset = rest ∧ 0 < next) 0 chain →
      LastEnds (cutBuffer (fillFrame rest size offset chain)).out) ∧
    (chain.countP (fun link => link.buf.lastBuf) ≤ 1 →
      LastEnds (cutBuffer (fillFrame rest size offset chain)).out →
      Followed (fun place next => place - offset ≤ rest → place - offset = rest ∧ 0 < next) 0 chain) := by
  induction chain with
  | nil =>
    intro rest size offset _
    refine ⟨fun _ marked => ?_, fun _ _ => trivial⟩
    obtain ⟨_, among, -⟩ := marked
    have none_ : (cutBuffer (fillFrame rest size offset [])).out = [] := by cases rest <;> rfl
    rw [none_] at among
    cases among
  | cons link next ih =>
    intro rest size offset at_
    have total : offset + size = bufSize link.buf := at_
    by_cases fits : rest ≥ size
    · have mark : (if offset ≠ 0 then getShadow link.buf offset size else link).buf.lastBuf =
          link.buf.lastBuf := by split_ifs <;> rfl
      rw [fillFrame.eq_def]
      dsimp only
      rw [if_pos fits]
      generalize (if offset ≠ 0 then getShadow link.buf offset size else link) = cl at mark ⊢
      cases next with
      | nil =>
        refine ⟨fun _ some_ => ?_, fun _ _ => trivial⟩
        obtain ⟨other, among, marked⟩ := some_
        rw [mem_singleton.mp among] at marked
        exact congrArg some marked
      | cons first more =>
        rw [(frame_followed total fits).1, cut_buffer_cons]
        have nextHeld : ∀ other ∈ first :: more, Held other.buf :=
          fun other among => held other (mem_cons_of_mem _ among)
        obtain ⟨of, back⟩ := @ih nextHeld (rest - size) (bufSize first.buf) 0 (zero_add _)
        have empty := @cut_out_nil (rest - size) (bufSize first.buf) 0 first more
        have marks := fun other =>
          @cut_marked (first :: more) (rest - size) (bufSize first.buf) 0 other nextHeld
          (cons_ne_nil _ _) (zero_add _)
        generalize (cutBuffer (fillFrame (rest - size) (bufSize first.buf) 0 (first :: more))).out = out
          at of back empty marks ⊢
        cases isMark : link.buf.lastBuf with
        | false =>
          have same : LastEnds (cl :: out) ↔ LastEnds out := by
            unfold LastEnds
            rw [exists_mem_cons_iff, mark, isMark]
            cases out with
            | nil => simp
            | cons other others => simp
          rw [same]
          constructor
          · exact fun good => of good.2
          · intro once right
            rw [countP_cons_of_neg (by simp [isMark])] at once
            exact ⟨fun isTrue => Bool.noConfusion isTrue, back once right⟩
        | true =>
          constructor
          · rintro ⟨full, -⟩
            rw [empty.mpr ⟨by have := (full rfl).1; omega, (full rfl).2⟩]
            intro _
            exact congrArg some (mark.trans isMark)
          · intro once right
            rw [countP_cons_of_pos (by simp [isMark])] at once
            have unmarked : ∀ other ∈ first :: more, other.buf.lastBuf = false := by
              have none_ : countP (fun link => link.buf.lastBuf) (first :: more) = 0 := by omega
              intro other among
              exact Bool.eq_false_of_not_eq_true (countP_eq_zero.mp none_ other among)
            refine ⟨fun _ => ?_, followed_unmarked unmarked⟩
            have last := right ⟨cl, mem_cons_self, mark.trans isMark⟩
            cases out with
            | nil =>
              have full := empty.mp rfl
              exact ⟨by omega, full.2⟩
            | cons other others =>
              obtain ⟨lastLink, isLast, marked⟩ := Option.map_eq_some_iff.mp last
              obtain ⟨link', among, marked'⟩ := marks lastLink (mem_of_getLast? isLast) marked
              rw [unmarked link' among] at marked'
              cases marked'
    · refine ⟨fun _ => ?_, fun _ _ => followed_of fun place above next within => by omega⟩
      rw [fillFrame.eq_def]
      dsimp only
      rw [if_neg fits]
      rintro ⟨other, among, marked⟩
      cases rest with
      | zero => cases among
      | succ rest =>
        rw [show other = _ from mem_singleton.mp among] at marked
        cases marked

theorem frame_leaves (good : Nat → Nat → Prop) : ∀ {rest size offset : Nat},
    At chain offset size →
      (Followed (fun place next => rest < place - offset → good (place - offset - rest) next) 0 chain ↔
        Followed (fun place => good (place - (cutBuffer (fillFrame rest size offset chain)).offset)) 0
          (cutBuffer (fillFrame rest size offset chain)).chain) := by
  induction chain with
  | nil =>
    intro rest size offset _
    have none_ : (cutBuffer (fillFrame rest size offset [])).chain = [] := by cases rest <;> rfl
    rw [none_]
    rfl
  | cons link next ih =>
    intro rest size offset at_
    have total : offset + size = bufSize link.buf := at_
    rw [fillFrame.eq_def]
    dsimp only
    by_cases fits : rest ≥ size
    · rw [if_pos fits]
      cases next with
      | nil => rfl
      | cons first more =>
        rw [(frame_followed total fits).2 good, cut_buffer_cons]
        exact ih (zero_add _)
    · rw [if_neg fits]
      have left : (cutBuffer ⟨[], link :: next, rest, 0, offset, size⟩).chain = link :: next ∧
          (cutBuffer ⟨[], link :: next, rest, 0, offset, size⟩).offset = offset + rest := by
        cases rest <;> exact ⟨rfl, rfl⟩
      rw [left.1, left.2]
      apply followed_congr
      intro place above next
      rw [Nat.sub_sub]
      exact imp_iff_right (by omega)

/-- What the first of `room + 1` frames asks, and what is left of that for the others. -/
theorem ends_frame_succ {room limit frameSize lowered place next : Nat} (positive : 0 < frameSize)
    (isLowered : (if frameSize > limit then limit else frameSize) = lowered) :
    EndsFrame (room + 1) limit frameSize place next ↔
      (place ≤ lowered → place = lowered ∧ 0 < next) ∧
        (lowered < place → EndsFrame room (limit - lowered) lowered (place - lowered) next) := by
  subst isLowered
  unfold EndsFrame
  by_cases large : frameSize > limit
  · rw [if_pos large]
    have notDivides : 0 < place → place ≤ limit → ¬ frameSize ∣ place :=
      fun some_ within divides => absurd (Nat.le_of_dvd some_ divides) (by omega)
    rcases lt_or_ge limit place with beyond | within
    · exact ⟨fun _ => ⟨fun within => absurd within (by omega), fun _ => .inr (.inr (.inl (by omega)))⟩,
        fun _ => .inr (.inr (.inl beyond))⟩
    · grind
  · rw [if_neg large]
    rcases lt_or_ge frameSize place with beyond | within
    · obtain ⟨more, rfl⟩ : ∃ more, place = more + frameSize := ⟨place - frameSize, by omega⟩
      rw [Nat.dvd_add_self_right, Nat.add_sub_cancel]
      grind
    · have whole : 0 < place → frameSize ∣ place → place = frameSize :=
        fun some_ divides => le_antisymm within (Nat.le_of_dvd some_ divides)
      have divides : place = frameSize → frameSize ∣ place := fun same => dvd_of_eq same.symm
      grind

theorem restored_followed {good : Nat → Nat → Prop} {link : Link} {offset : Nat} {next : List Link}
    (mark : first.buf.lastBuf = link.buf.lastBuf) (at_ : offset + bufSize link.buf = bufSize first.buf) :
    Followed (fun place => good (place - offset)) 0 (first :: next) ↔ Followed good 0 (link :: next) := by
  cases next with
  | nil => rfl
  | cons other more =>
    have place : 0 + bufSize first.buf = offset + bufSize link.buf := by omega
    rw [followed_cons, followed_cons, mark, place, Nat.add_sub_cancel_left, followed_shift]
    simp only [Nat.add_sub_cancel_left, Nat.zero_add]

end ServerCore.NginxHttpV2SendChainEnds
