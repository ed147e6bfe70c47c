import ServerCore.NginxHttpV2SendChainEnds

/-!
# DATA frames slice the chain

One turn of the loop queues what `Cuts` says and takes it from both windows. The
frames of a call follow by induction on the turns, since a turn that leaves
something uses up a part of the limit.
-/

namespace ServerCore.NginxHttpV2SendChainFrames

open NginxHttpV2SendChain NginxHttpV2SendChainBytes NginxHttpV2SendChainEnds List

variable {stream : Stream}

variable {h2c : Connection}

variable {new : List DataFrame}

variable {chain : List Link}

variable {limit : Nat}

variable {frame : DataFrame} {rest : List Link}

section Calls

variable (memory : Nat → Byte) (files : Nat → Nat → Byte)

def payload (frame : DataFrame) : Bytes := chainBytes memory files frame.bufs

def framedTotal (frames : List DataFrame) : Nat := (frames.map fun frame => frame.length).sum

/-- END_STREAM is set just when the end of a buffer with `last_buf` is in the frame. -/
def EndsRight (frame : DataFrame) : Prop :=
  frame.flags = endStreamFlag ↔ none ∈ contents memory files frame.bufs

/-- The chain has at most one end of a response. -/
def OneEnd (chain : List Link) : Prop := chain.countP (fun link => link.buf.lastBuf) ≤ 1

variable {memory files}

theorem flush_last_contents {out : List Link} :
    contents memory files (flushLast out) = contents memory files out := by
  induction out with
  | nil => rfl
  | cons link rest ih =>
    cases rest with
    | nil => rfl
    | cons next more =>
      unfold flushLast
      rw [contents_cons, contents_cons, ih]

theorem data_frame_ends (len : Nat) (out : List Link) :
    EndsRight memory files (getDataFrame len out) ↔ LastEnds out := by
  unfold EndsRight LastEnds getDataFrame
  rw [flush_last_contents, none_in_contents]
  have among : (out.getLast?.map fun link => link.buf.lastBuf) = some true →
      ∃ link ∈ out, link.buf.lastBuf = true := by
    intro isLast
    obtain ⟨link, last, marked⟩ := Option.map_eq_some_iff.mp isLast
    exact ⟨link, mem_of_getLast? last, marked⟩
  have flag : (if (out.getLast?.map fun link => link.buf.lastBuf).getD false =
      true then endStreamFlag else 0) =
      endStreamFlag ↔ (out.getLast?.map fun link => link.buf.lastBuf) = some true := by
    cases out.getLast? with
    | none => simp [endStreamFlag]
    | some link => cases isLast : link.buf.lastBuf <;> simp [endStreamFlag, isLast]
  rw [flag]
  exact ⟨fun same => same.mpr, fun ends => ⟨among, ends⟩⟩

theorem framed_total_cons (frame : DataFrame) (frames : List DataFrame) :
    framedTotal (frame :: frames) = frame.length + framedTotal frames := sum_cons

/-- What `new` frames are, between the variables of the loop before and after. -/
structure Slices (memory : Nat → Byte) (files : Nat → Nat → Byte) (frameSize limit : Nat) (cut next : Cut)
    (new : List DataFrame) : Prop where
  frames : next.frames = cut.frames ++ new
  kept : new.flatMap (fun frame => contents memory files frame.bufs) ++
    left memory files next.chain next.offset = left memory files cut.chain cut.offset
  lengths : ∀ frame ∈ new, (payload memory files frame).length = frame.length ∧ frame.length ≤ frameSize
  total : framedTotal new ≤ limit
  window : next.sendWindow + framedTotal new = cut.sendWindow
  streamWindow : next.streamWindow + framedTotal new = cut.streamWindow
  at_ : At next.chain next.offset next.size
  suffix : next.chain <:+ cut.chain

/-- What the end of a stream comes to in the frames of a turn, or of some turns. -/
structure Ends (memory : Nat → Byte) (files : Nat → Nat → Byte) (good : Nat → Nat → Prop) (cut : Cut)
    (new : List DataFrame) : Prop where
  right : Followed (fun place => good (place - cut.offset)) 0 cut.chain →
    ∀ frame ∈ new, EndsRight memory files frame
  needed : OneEnd cut.chain → (∀ frame ∈ new, EndsRight memory files frame) →
    Followed (fun place => good (place - cut.offset)) 0 cut.chain

theorem cut_frame_slices {frameSize limit : Nat} {cut : Cut} (held : ∀ link ∈ cut.chain, Held link.buf)
    (some_ : cut.chain ≠ []) (at_ : At cut.chain cut.offset cut.size) (within : frameSize ≤ limit)
    (window : limit ≤ cut.sendWindow) :
    ∃ frame, Slices memory files frameSize limit cut (cutFrame frameSize cut).1 [frame] ∧
      Ends memory files (fun place next => place ≤ frameSize → place = frameSize ∧ 0 < next) cut [frame] ∧
      frame.length = (cutFrame frameSize cut).2 ∧
      ((cutFrame frameSize cut).1.chain ≠ [] →
        (cutFrame frameSize cut).2 = frameSize ∧ 0 < (cutFrame frameSize cut).1.size) := by
  have fills := @fill_frame cut.chain memory files held some_ frameSize cut.size cut.offset at_
  have cuts := cut_buffer held fills
  obtain ⟨right, needed⟩ := @frame_ends cut.chain held frameSize cut.size cut.offset at_
  unfold cutFrame
  dsimp only
  generalize cutBuffer (fillFrame frameSize cut.size cut.offset cut.chain) = filled at cuts right needed ⊢
  have length := cuts.length
  have payloadBytes : payload memory files (getDataFrame (frameSize - filled.unused) filled.out) =
      chainBytes memory files filled.out := by
    unfold payload getDataFrame
    rw [← contents_bytes, flush_last_contents, contents_bytes]
  refine ⟨getDataFrame (frameSize - filled.unused) filled.out,
    ⟨rfl, ?_, ?_, ?_, ?_, ?_, cuts.at_, cuts.suffix⟩, ⟨?_, ?_⟩, rfl,
    fun more => ⟨by rw [(cuts.more more).1, Nat.sub_zero], (cuts.more more).2⟩⟩
  · rw [flatMap_singleton, ← cuts.kept]
    exact congrArg (· ++ _) flush_last_contents
  · intro frame isFrame
    rw [mem_singleton.mp isFrame, payloadBytes]
    exact ⟨by show _ = frameSize - filled.unused; omega, Nat.sub_le ..⟩
  · show frameSize - filled.unused + 0 ≤ limit
    omega
  · show cut.sendWindow - (frameSize - filled.unused) + (frameSize - filled.unused + 0) = cut.sendWindow
    omega
  · show cut.streamWindow - ((frameSize - filled.unused : Nat) : Int) +
      ((frameSize - filled.unused + 0 : Nat) : Int) = cut.streamWindow
    omega
  · intro followed frame isFrame
    rw [mem_singleton.mp isFrame, data_frame_ends]
    exact right followed
  · intro once ends
    apply needed once
    exact (data_frame_ends _ _).mp (ends _ (mem_singleton_self _))

theorem slices_cons {frameSize frameSize' limit' : Nat} {cut next final : Cut}
    (first : Slices memory files frameSize' limit cut next [frame])
    (more : Slices memory files frameSize' limit' next final new) (within : frameSize' ≤ frameSize)
    (limits : limit' + frame.length ≤ limit) :
    Slices memory files frameSize limit cut final (frame :: new) := by
  have firstTotal : framedTotal [frame] = frame.length := rfl
  have firstWindow := first.window
  have firstStream := first.streamWindow
  refine ⟨?_, ?_, ?_, ?_, ?_, ?_, more.at_, more.suffix.trans first.suffix⟩
  · rw [more.frames, first.frames, append_assoc]
    rfl
  · rw [flatMap_cons, append_assoc, more.kept, ← first.kept, flatMap_singleton]
  · intro other among
    cases mem_cons.mp among with
    | inl same =>
      subst same
      have lengths := first.lengths other mem_cons_self
      exact ⟨lengths.1, Nat.le_trans lengths.2 within⟩
    | inr later =>
      have lengths := more.lengths other later
      exact ⟨lengths.1, Nat.le_trans lengths.2 within⟩
  · rw [framed_total_cons]
    have total := more.total
    omega
  · rw [framed_total_cons]
    have window := more.window
    omega
  · rw [framed_total_cons]
    have window := more.streamWindow
    omega

theorem one_end_suffix (suffix : rest <:+ chain) (once : OneEnd chain) : OneEnd rest :=
  le_trans suffix.sublist.countP_le once

theorem ends_nil {good : Nat → Nat → Prop} {cut : Cut}
    (followed : Followed (fun place => good (place - cut.offset)) 0 cut.chain) :
    Ends memory files good cut [] :=
  ⟨fun _ _ among => absurd among not_mem_nil, fun _ _ => followed⟩

theorem ends_cons {room frameSize lowered : Nat} {cut : Cut}
    (positive : 0 < frameSize) (isLowered : (if frameSize > limit then limit else frameSize) = lowered)
    (at_ : At cut.chain cut.offset cut.size) (suffix : (cutFrame lowered cut).1.chain <:+ cut.chain)
    (first : Ends memory files (fun place next => place ≤ lowered → place = lowered ∧ 0 < next) cut [frame])
    (others : Ends memory files (EndsFrame room (limit - lowered) lowered) (cutFrame lowered cut).1 new) :
    Ends memory files (EndsFrame (room + 1) limit frameSize) cut (frame :: new) := by
  have asks : (fun place => EndsFrame (room + 1) limit frameSize (place - cut.offset)) = _ :=
    funext fun place => funext fun next => propext (ends_frame_succ positive isLowered)
  have leaves := @frame_leaves cut.chain
    (EndsFrame room (limit - lowered) lowered) lowered cut.size cut.offset at_
  constructor
  · rw [asks, followed_and, leaves]
    intro ⟨here, later⟩ other among
    cases mem_cons.mp among with
    | inl same => exact first.right here other (mem_singleton.mpr same)
    | inr among => exact others.right later other among
  · rw [asks, followed_and, leaves]
    intro once ends
    refine ⟨first.needed once fun other among => ?_, ?_⟩
    · rw [mem_singleton.mp among]
      exact ends frame mem_cons_self
    · exact others.needed (one_end_suffix suffix once) fun other among =>
        ends other (mem_cons_of_mem _ among)

theorem cut_frames_slice {fuel : Nat} :
    ∀ {room frameSize limit : Nat} {cut : Cut}, limit < fuel → 0 < frameSize →
      (∀ link ∈ cut.chain, Held link.buf) → cut.chain ≠ [] → At cut.chain cut.offset cut.size →
      limit ≤ cut.sendWindow →
      ∃ final failed new, cutFrames fuel room frameSize limit cut = some (final, failed) ∧
        Slices memory files frameSize limit cut final new ∧
        Ends memory files (EndsFrame room limit frameSize) cut new ∧ (failed = true → new.length = room) ∧
        (failed = false → framedTotal new = limit ∨ final.chain = []) := by
  induction fuel with
  | zero => exact nofun
  | succ fuel ih =>
    intro room frameSize limit cut few positive held some_ at_ window
    cases room with
    | zero =>
      have nothing : Followed
          (fun place => EndsFrame 0 limit frameSize (place - cut.offset)) 0 cut.chain := by
        cases cut.chain with
        | nil => trivial
        | cons link rest => exact followed_of fun _ _ _ => .inl rfl
      exact ⟨cut, true, [], rfl, ⟨(append_nil _).symm, rfl, nofun, Nat.zero_le _, rfl, Int.add_zero _, at_,
        suffix_refl _⟩, ends_nil nothing, fun _ => rfl, nofun⟩
    | succ room =>
      have lowered : (if frameSize > limit then limit else frameSize) ≤ limit ∧
          (if frameSize > limit then limit else frameSize) ≤ frameSize := by
        split_ifs <;> omega
      have used : limit ≠ 0 → 0 < if frameSize > limit then limit else frameSize := by
        split_ifs <;> omega
      rw [cutFrames]
      dsimp only
      generalize isLowered : (if frameSize > limit then limit else frameSize) = frameSize' at lowered used ⊢
      obtain ⟨frame, slices, ends, length, full⟩ :=
        @cut_frame_slices memory files frameSize' limit cut held some_ at_ lowered.1 window
      have total : framedTotal [frame] = frame.length := rfl
      have whole : Slices memory files frameSize limit cut (cutFrame frameSize' cut).1 [frame] :=
        { slices with
          lengths := fun other among =>
            ⟨(slices.lengths other among).1, Nat.le_trans (slices.lengths other among).2 lowered.2⟩ }
      by_cases none : (cutFrame frameSize' cut).1.chain = []
      · rw [if_pos none]
        refine ⟨_, false, [frame], rfl, whole,
          ends_cons positive isLowered at_ slices.suffix ends (ends_nil ?_), nofun,
          fun _ => .inr none⟩
        rw [none]
        trivial
      · rw [if_neg none]
        obtain ⟨framed, more_⟩ := full none
        by_cases spent : limit - (cutFrame frameSize' cut).2 = 0
        · rw [if_pos spent]
          refine ⟨_, false, [frame], rfl, whole,
          ends_cons positive isLowered at_ slices.suffix ends (ends_nil ?_), nofun,
            fun _ => .inl (by omega)⟩
          have place := slices.at_
          generalize (cutFrame frameSize' cut).1 = next at none more_ place ⊢
          obtain ⟨_, chain, offset, size, _, _, _⟩ := next
          cases chain with
          | nil => exact absurd rfl none
          | cons link rest =>
            apply followed_of
            intro place' above next
            have total' : offset + size = bufSize link.buf := place
            exact .inr (.inr (.inl (by dsimp only at more_ ⊢; omega)))
        · rw [if_neg spent]
          have positive' := used (by omega)
          have windowLeft := slices.window
          obtain ⟨final, failed, new, finished, others, othersEnd, noRoom, rest⟩ :=
            @ih room frameSize' (limit - (cutFrame frameSize' cut).2) (cutFrame frameSize' cut).1 (by omega)
              positive' (fun link among => held link (slices.suffix.subset among)) none slices.at_ (by omega)
          refine ⟨final, failed, frame :: new, finished, slices_cons slices others lowered.2 (by omega),
            ends_cons positive isLowered at_ slices.suffix ends ?_, fun failing =>
            congrArg (· + 1) (noRoom failing), ?_⟩
          · rw [framed] at othersEnd
            exact othersEnd
          · intro done
            rw [framed_total_cons]
            exact (rest done).imp_left fun all => by omega

theorem skip_empty_spec (chain : List Link) :
    contents memory files (skipEmpty chain) = contents memory files chain ∧
      skipEmpty chain <:+ chain := by
  induction chain with
  | nil => exact ⟨rfl, suffix_refl _⟩
  | cons link rest ih =>
    unfold skipEmpty
    by_cases sent : bufSize link.buf ≠ 0 ∨ link.buf.lastBuf
    · rw [if_pos sent]
      exact ⟨rfl, suffix_refl _⟩
    · rw [if_neg sent]
      obtain ⟨noBytes, unmarked⟩ := not_or.mp sent
      have empty : bufBytes memory files link.buf = [] := by
        apply eq_nil_of_length_eq_zero
        rw [buf_bytes_length]
        exact not_ne_iff.mp noBytes
      refine ⟨?_, ih.2.trans (suffix_cons ..)⟩
      rw [contents_cons, bufContents, empty, if_neg unmarked]
      exact ih.1

theorem flow_control_stream (h2c : Connection) (stream : Stream) :
    (flowControl h2c stream).2.sendWindow = stream.sendWindow := by
  unfold flowControl
  split_ifs <;> rfl

theorem lower_limit_within (limit : Nat) (h2c : Connection) (stream : Stream) :
    lowerLimit limit h2c stream ≤ h2c.sendWindow := by
  unfold lowerLimit
  dsimp only
  split_ifs <;> omega

theorem get_shadow_of {buf : Buf} {offset size : Nat} (held : Held buf) (some_ : 0 < offset)
    (total : offset + size = bufSize buf) : ShadowOf (getShadow buf offset size).buf buf := by
  refine ⟨rfl, rfl, held, rfl, ?_⟩
  unfold bufSize at total
  unfold getShadow
  cases inMemory : buf.inMemory with
  | true =>
    simp only [inMemory, if_true] at total ⊢
    omega
  | false =>
    have inFile : buf.inFile = true := by
      rcases held with memory | file | empty
      · simp [inMemory] at memory
      · exact file
      · simp only [bufSize, inMemory, Bool.false_eq_true, if_false] at empty total
        omega
    simp only [inMemory, inFile, Bool.false_eq_true, if_false, if_true] at total ⊢
    omega

theorem shadow_first_left {cut : Cut} (well : WellShadowed cut.chain)
    (at_ : At cut.chain cut.offset cut.size) :
    contents memory files (shadowFirst cut) = left memory files cut.chain cut.offset ∧
      WellShadowed (shadowFirst cut) ∧ (shadowFirst cut = [] ↔ cut.chain = []) := by
  unfold shadowFirst
  obtain ⟨frames, chain, offset, size, sendWindow, streamWindow, queued⟩ := cut
  cases chain with
  | nil => simp [left, well, contents]
  | cons link rest =>
    obtain ⟨held, -⟩ := well link mem_cons_self
    have total : offset + size = bufSize link.buf := at_
    dsimp only
    by_cases whole : offset = 0
    · subst whole
      simp [left, well]
    · have same := (@whole_rest memory files link offset size held total).1
      rw [if_pos whole] at same ⊢
      refine ⟨?_, ?_, by simp⟩
      · rw [left_cons (by omega), contents_cons, same, buf_contents_drop (by omega), append_assoc]
      · intro other among
        cases mem_cons.mp among with
        | inl same =>
          subst same
          refine ⟨get_shadow_held held (Nat.le_of_eq total), ?_⟩
          intro buf isShadow
          rw [← show link.buf = buf from Option.some.inj isShadow]
          exact get_shadow_of held (by omega) total
        | inr later => exact well other (mem_cons_of_mem _ later)

/-- A call slices its chain: the bytes of the chain are those of the frames, then
those of the chain that is left, and the ends of its buffers with `last_buf` stay
among them. A call that does not fail goes on until its limit or the chain is used up. -/
structure CallSlices (memory : Nat → Byte) (files : Nat → Nat → Byte) (chunkSize limit room : Nat)
    (fails : Bool) (h2c : Connection) (stream : Stream) (chain : List Link) (outcome : Outcome) : Prop where
  returned : outcome.chain = some outcome.rest ∨
    outcome.chain = none ∧ (fails = true ∨ outcome.frames.length = room)
  bytes : chainBytes memory files chain =
    outcome.frames.flatMap (payload memory files) ++ chainBytes memory files outcome.rest
  kept : contents memory files chain =
    outcome.frames.flatMap (fun frame => contents memory files frame.bufs) ++
      contents memory files outcome.rest
  lengths : ∀ frame ∈ outcome.frames, (payload memory files frame).length = frame.length ∧
    frame.length ≤ h2c.frameSize ∧ frame.length ≤ chunkSize
  window : outcome.connection.sendWindow + framedTotal outcome.frames = h2c.sendWindow
  streamWindow : outcome.stream.sendWindow + framedTotal outcome.frames = stream.sendWindow
  full : outcome.chain ≠ none → framedTotal outcome.frames = lowerLimit limit h2c stream ∨ outcome.rest = []
  shadowed : WellShadowed outcome.rest

theorem kept_bytes {frames : List DataFrame}
    (kept : contents memory files chain =
      frames.flatMap (fun frame => contents memory files frame.bufs) ++ contents memory files rest) :
    chainBytes memory files chain = frames.flatMap (payload memory files) ++
      chainBytes memory files rest := by
  have payloads : (frames.flatMap fun frame => contents memory files frame.bufs).reduceOption =
      frames.flatMap (payload memory files) := by
    clear kept
    induction frames with
    | nil => rfl
    | cons frame frames ih =>
      rw [flatMap_cons, flatMap_cons, reduceOption_append, ih, contents_bytes]
      rfl
  rw [← contents_bytes, kept, reduceOption_append, payloads, contents_bytes]

theorem call_slices_nothing {chunkSize room : Nat} {fails : Bool} {outcome : Outcome}
    (none_ : outcome.frames = []) (connection : outcome.connection = h2c)
    (result : outcome.chain = some outcome.rest) (window : outcome.stream.sendWindow = stream.sendWindow)
    (same : contents memory files outcome.rest = contents memory files chain)
    (full : lowerLimit limit h2c stream = 0 ∨ outcome.rest = []) (well : WellShadowed outcome.rest) :
    CallSlices memory files chunkSize limit room fails h2c stream chain outcome := by
  obtain ⟨outChain, rest, frames, outConnection, outStream, outFc⟩ := outcome
  subst none_ connection
  refine ⟨.inl result, kept_bytes same.symm, same.symm, ?_, rfl, ?_, fun _ => full.imp_left Eq.symm, well⟩
  · intro frame among
    cases among
  · exact (Int.add_zero _).trans window

theorem call_slices_cut {chunkSize frameSize limit room : Nat} {fails failed : Bool} {h2c : Connection}
    {stream : Stream} {chain : List Link} {cut final : Cut} {new : List DataFrame} {outcome : Outcome}
    (slices : Slices memory files frameSize (lowerLimit limit h2c stream) cut final new)
    (start : cut.frames = [])
    (same : left memory files cut.chain cut.offset = contents memory files chain)
    (well : WellShadowed cut.chain) (sizes : frameSize ≤ h2c.frameSize ∧ frameSize ≤ chunkSize)
    (window : cut.sendWindow = h2c.sendWindow) (streamWindow : cut.streamWindow = stream.sendWindow)
    (noRoom : failed = true → new.length = room)
    (full : failed = false → framedTotal new = lowerLimit limit h2c stream ∨ final.chain = [])
    (result : outcome.chain = if failed || fails then none else some outcome.rest)
    (rest : outcome.rest = shadowFirst final) (frames : outcome.frames = final.frames)
    (connection : outcome.connection.sendWindow = final.sendWindow)
    (leftStream : outcome.stream.sendWindow = final.streamWindow) :
    CallSlices memory files chunkSize limit room fails h2c stream chain outcome := by
  have finalWell : WellShadowed final.chain := fun link among => well link (slices.suffix.subset among)
  obtain ⟨finalContents, restWell, restNone⟩ := @shadow_first_left memory files final finalWell slices.at_
  have isNew : outcome.frames = new := by rw [frames, slices.frames, start, nil_append]
  have total := slices.window
  have streamTotal := slices.streamWindow
  have kept : contents memory files chain =
      outcome.frames.flatMap (fun frame => contents memory files frame.bufs) ++
      contents memory files outcome.rest := by
    rw [isNew, rest, finalContents, slices.kept, same]
  refine ⟨?_, kept_bytes kept, kept, ?_, ?_, ?_, ?_, ?_⟩
  · rw [result, isNew]
    cases failed with
    | true => exact .inr ⟨rfl, .inr (noRoom rfl)⟩
    | false =>
      cases fails with
      | true => exact .inr ⟨rfl, .inl rfl⟩
      | false => exact .inl rfl
  · intro frame among
    rw [isNew] at among
    obtain ⟨length, within⟩ := slices.lengths frame among
    exact ⟨length, Nat.le_trans within sizes.1, Nat.le_trans within sizes.2⟩
  · rw [isNew, connection, total, window]
  · rw [isNew, leftStream, streamTotal, streamWindow]
  · rw [result, isNew, rest, restNone]
    cases failed with
    | true => exact fun some_ => absurd rfl some_
    | false => exact fun _ => full rfl
  · rw [rest]
    exact restWell

theorem restore_first_chain {link : Link} {next : List Link} (well : WellShadowed (link :: next)) :
    At ((restoreFirst link).1 :: next) (restoreFirst link).2 (bufSize link.buf) ∧
      left memory files ((restoreFirst link).1 :: next) (restoreFirst link).2 =
        contents memory files (link :: next) ∧ WellShadowed ((restoreFirst link).1 :: next) ∧
      (restoreFirst link).1.buf.lastBuf = link.buf.lastBuf := by
  obtain ⟨held, shadow⟩ := well link mem_cons_self
  obtain ⟨at_, restored, firstHeld, mark, firstShadow⟩ := @restore_first memory files link held shadow
  refine ⟨at_, ?_, ?_, mark⟩
  · rw [left_cons (by omega), restored, mark, contents_cons, bufContents, append_assoc]
  · intro other among
    cases mem_cons.mp among with
    | inl same =>
      subst same
      exact ⟨firstHeld, firstShadow⟩
    | inr later => exact well other (mem_cons_of_mem _ later)

theorem flow_control_refused
    (refused : (flowControl h2c stream).1 = false) : lowerLimit limit h2c stream = 0 := by
  unfold flowControl at refused
  unfold lowerLimit
  dsimp only
  split_ifs at refused ⊢ <;> omega

/-- Every call slices its chain into DATA frames. Settings and configuration have no
frame and no chunk of size zero. END_STREAM is on the right frames where every buffer
with `last_buf` that is not the last one of the chain ends with a frame, or is not
reached; and for a chain that ends its response once, only then. -/
theorem call_slices_chain (chunkSize limit room : Nat) (fails : Bool) (h2c : Connection) (stream : Stream)
    (fc : Fake) (chain : List Link) (chunked : 0 < chunkSize) (framed : 0 < h2c.frameSize)
    (well : WellShadowed chain) :
    ∃ outcome, ngxHttpV2SendChain chunkSize limit room fails h2c stream fc chain = some outcome ∧
      CallSlices memory files chunkSize limit room fails h2c stream chain outcome ∧
      (Followed (EndsFrame room (lowerLimit limit h2c stream) (sizeLimit chunkSize h2c)) 0 chain →
        ∀ frame ∈ outcome.frames, EndsRight memory files frame) ∧
      (OneEnd chain → (∀ frame ∈ outcome.frames, EndsRight memory files frame) →
        Followed (EndsFrame room (lowerLimit limit h2c stream) (sizeLimit chunkSize h2c)) 0 chain) := by
  obtain ⟨skipped, suffix⟩ := @skip_empty_spec memory files chain
  rw [← @followed_skip _ chain]
  unfold ngxHttpV2SendChain
  generalize skipEmpty chain = kept at skipped suffix ⊢
  cases kept with
  | nil =>
    refine ⟨_, rfl, call_slices_nothing rfl rfl rfl rfl skipped (.inr rfl) ?_, ?_, fun _ _ => trivial⟩
    · intro link among
      cases among
    · intro _ frame among
      cases among
  | cons link next =>
    have keptWell : WellShadowed (link :: next) := fun other among => well other (suffix.subset among)
    obtain ⟨at_, same, firstWell, mark⟩ := @restore_first_chain memory files link next keptWell
    rw [skipped] at same
    have entryStream : (if bufSize link.buf ≠ 0 then flowControl h2c stream else
        (true, stream)).2.sendWindow =
        stream.sendWindow := by
      split_ifs
      · exact flow_control_stream ..
      · rfl
    have refused : (if bufSize link.buf ≠ 0 then flowControl h2c stream else (true, stream)).1 = false →
        0 < bufSize link.buf ∧ lowerLimit limit h2c stream = 0 := by
      split_ifs with some_
      · exact fun refused => ⟨Nat.pos_of_ne_zero some_, flow_control_refused refused⟩
      · exact nofun
    dsimp only
    generalize (if bufSize link.buf ≠ 0 then flowControl h2c stream else (true, stream)) = entry
      at entryStream refused ⊢
    obtain ⟨allowed, entered⟩ := entry
    cases allowed with
    | false =>
      obtain ⟨some_, none_⟩ := refused rfl
      refine ⟨_, rfl, call_slices_nothing rfl rfl rfl entryStream skipped (.inl none_) keptWell, ?_,
        fun _ _ => ?_⟩
      · intro _ frame among
        cases among
      · rw [none_]
        exact followed_of fun place above _ => .inr (.inr (.inl (by omega)))
    | true =>
      have sameLimit : lowerLimit limit h2c entered = lowerLimit limit h2c stream := by
        unfold lowerLimit
        rw [entryStream]
      rw [if_neg (show ¬(!true) = true from Bool.false_ne_true), ← restored_followed mark at_]
      generalize restoreFirst link = place at at_ same firstWell mark ⊢
      obtain ⟨first, offset⟩ := place
      have sizes : sizeLimit chunkSize h2c ≤ h2c.frameSize ∧ sizeLimit chunkSize h2c ≤ chunkSize ∧
          0 < sizeLimit chunkSize h2c := by
        unfold sizeLimit
        split_ifs <;> omega
      generalize sizeLimit chunkSize h2c = frameSize at sizes ⊢
      obtain ⟨final, failed, new, ran, slices, ends, noRoom, full⟩ := @cut_frames_slice memory files
        (lowerLimit limit h2c entered + 1) room frameSize (lowerLimit limit h2c entered)
        ⟨[], first :: next, offset, bufSize link.buf, h2c.sendWindow, entered.sendWindow, entered.queued⟩
        (Nat.lt_succ_self _) sizes.2.2 (fun other among => (firstWell other among).1)
        (cons_ne_nil _ _) at_ (lower_limit_within ..)
      have isNew : final.frames = new := slices.frames
      rw [sameLimit] at slices ends full
      rw [ran]
      have finish := fun outcome => @call_slices_cut memory files chunkSize frameSize limit room fails failed
        h2c stream chain
        ⟨[], first :: next, offset, bufSize link.buf, h2c.sendWindow, entered.sendWindow, entered.queued⟩
        final new outcome slices rfl same firstWell ⟨sizes.1, sizes.2.1⟩ rfl entryStream noRoom full
      have right := ends.right
      have needed : OneEnd chain → _ := fun once => ends.needed (by
        unfold OneEnd
        rw [countP_cons, mark, ← countP_cons]
        exact one_end_suffix suffix once)
      rw [← isNew] at right needed
      dsimp only
      by_cases wrong : (failed || fails) = true
      · rw [if_pos wrong]
        exact ⟨_, rfl, finish _ (if_pos wrong).symm rfl rfl rfl rfl, right, needed⟩
      · rw [if_neg wrong]
        by_cases sent : shadowFirst final = []
        · rw [if_pos sent]
          exact ⟨_, rfl, finish _ (if_neg wrong).symm rfl rfl rfl rfl, right, needed⟩
        · rw [if_neg sent]
          exact ⟨_, rfl, finish _ (if_neg wrong).symm rfl rfl rfl (flow_control_stream ..), right, needed⟩

end Calls

/-- The last six bytes of a buffer of ten, three bytes of a file that end the
response, and two bytes behind its end. -/
def threeBuffers : List Link :=
  [⟨⟨true, false, 104, 110, 0, 0, 0, false, false⟩, some ⟨true, false, 100, 110, 0, 0, 0, false, false⟩⟩,
    ⟨⟨false, true, 0, 0, 7, 40, 43, true, true⟩, none⟩,
    ⟨⟨true, false, 200, 202, 0, 0, 0, false, false⟩, none⟩]

/-- Nine bytes are the windows' limit, so the third frame ends where the response does. -/
theorem call_slices_three_buffers :
    ∃ outcome, ngxHttpV2SendChain 4 0 3 false ⟨100, 16384⟩ ⟨9, 0, false, false⟩ ⟨false, true, true⟩
        threeBuffers = some outcome ∧
      CallSlices (fun addr => UInt8.ofNat addr) (fun _ place => UInt8.ofNat place) 4 0 3 false ⟨100, 16384⟩
        ⟨9, 0, false, false⟩ threeBuffers outcome ∧
      ∀ frame ∈ outcome.frames,
        EndsRight (fun addr => UInt8.ofNat addr) (fun _ place => UInt8.ofNat place) frame := by
  have well : WellShadowed threeBuffers := by
    intro link among
    rcases mem_cons.mp among with rfl | later
    · refine ⟨.inl rfl, fun buf isShadow => ?_⟩
      cases isShadow
      exact ⟨rfl, rfl, .inl rfl, rfl, by decide⟩
    · rcases mem_cons.mp later with rfl | last
      · exact ⟨.inr (.inl rfl), nofun⟩
      · rw [mem_singleton.mp last]
        exact ⟨.inl rfl, nofun⟩
  obtain ⟨outcome, ran, slices, right, -⟩ := @call_slices_chain (fun addr => UInt8.ofNat addr)
    (fun _ place => UInt8.ofNat place) 4 0 3 false ⟨100, 16384⟩ ⟨9, 0, false, false⟩ ⟨false, true, true⟩
    threeBuffers (by decide) (by decide) well
  refine ⟨outcome, ran, slices, right ⟨nofun, fun _ => ?_, trivial⟩⟩
  exact .inr (.inr (.inr ⟨by decide, .inl rfl⟩))

/-- The end of a range, and the flush of an upstream that failed while it waited. -/
def endThenFlush : List Link :=
  [⟨⟨true, false, 100, 103, 0, 0, 0, false, true⟩, none⟩, ⟨⟨false, false, 0, 0, 0, 0, 0, true, false⟩, none⟩]

/-- The frame takes both and is not the end of the stream. -/
theorem end_of_stream_lost : WellShadowed endThenFlush ∧ OneEnd endThenFlush ∧
    ∃ outcome, ngxHttpV2SendChain 8192 0 1 false ⟨65535, 16384⟩ ⟨65535, 0, false, false⟩
        ⟨false, true, true⟩ endThenFlush = some outcome ∧ outcome.rest = [] ∧
      ∃ frame, outcome.frames = [frame] ∧ frame.flags ≠ endStreamFlag ∧
        ¬ EndsRight (fun addr => UInt8.ofNat addr) (fun _ place => UInt8.ofNat place) frame := by
  refine ⟨?_, by unfold OneEnd; decide, _, rfl, rfl, _, rfl, by decide, by unfold EndsRight; decide⟩
  intro link among
  rcases mem_cons.mp among with rfl | later
  · exact ⟨.inl rfl, nofun⟩
  · rw [mem_singleton.mp later]
    exact ⟨.inr (.inr rfl), nofun⟩

end ServerCore.NginxHttpV2SendChainFrames
