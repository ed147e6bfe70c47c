import ServerCore.NginxHttpV2Windows

/-!
# The flow of DATA frames

Frames that are queued, sent and taken out of the queue keep the windows in
balance, and so does every run of events on a connection in which a request
that ends never gives back more than fits into the window of the connection.
-/

namespace ServerCore.NginxHttpV2SendFlow

open NginxHttpV2FlowControl NginxHttpV2Windows TransitionSystem List Option Function

variable {c' c : Connection} {length sid alloc : Nat} {frame : OutFrame}
  {precedes : Nat → Nat → Bool} {s s' : State} {allowed : State → Event → Prop}

section Output

variable {s : State}

theorem sound_of_same (sound : Sound s) (same : SameWindows s.connection c') (queued : Queued c') :
    Sound { s with connection := c' } :=
  ⟨indexed_of_same same sound.indexed, queued, balanced_of_same same sound.balanced⟩

theorem sound_exhaust (sound : Sound s) (sid : Nat) :
    Sound { s with connection := exhaust s.connection sid } := by
  unfold exhaust
  cases isStream : s.connection.streams sid with
  | none => exact sound
  | some stream =>
    apply sound_of_same sound
    · exact ⟨⟨rfl, rfl, rfl, rfl, rfl⟩, window_of_set_same isStream (by rfl) (by rfl)⟩
    · exact set_queued sound.queued isStream (by rfl)

theorem sound_queue_control (sound : Sound s) :
    Sound { s with connection := { s.connection with
      lastOut := queueBlockedFrame ⟨none, length, false, false⟩ s.connection.lastOut } } := by
  apply sound_of_same sound
  · exact ⟨⟨rfl, rfl, rfl, rfl, rfl⟩, rfl⟩
  · apply queued_insert sound.queued (queue_blocked_frame_perm _ _)
    · intro hasStream
      cases hasStream rfl
    · intro sid
      rw [if_neg (nofun), Nat.zero_add]
      rfl

theorem sound_queue_headers (sound : Sound s) :
    Sound { s with connection := queueHeaders s.connection sid length } := by
  unfold queueHeaders
  cases isStream : s.connection.streams sid with
  | none => exact sound
  | some stream =>
    apply sound_of_same sound
    · exact ⟨⟨rfl, rfl, rfl, rfl, rfl⟩, window_of_set_same isStream (by rfl) (by rfl)⟩
    · apply queued_insert sound.queued (queue_blocked_frame_perm _ _)
      · intro _ notBlocked
        exact absurd notBlocked (by simp)
      · intro other
        change queuedOf (s.connection.setStream sid { stream with queued := stream.queued + 1 }) other = _
        rw [queued_of_set]
        by_cases same : other = sid
        · subst same
          rw [update_self, if_pos rfl, queued_of_some isStream, Nat.add_comm]
        · rw [update_of_ne same, if_neg (fun h => same (Option.some.inj h).symm), Nat.zero_add]

theorem handle_frame_same (c : Connection) :
    SameWindows c (handleFrame c frame) ∧ (handleFrame c frame).lastOut = c.lastOut := by
  unfold handleFrame
  cases frame.stream with
  | none => exact ⟨⟨⟨rfl, rfl, rfl, rfl, rfl⟩, rfl⟩, rfl⟩
  | some sid =>
    cases isStream : c.streams sid with
    | none =>
      simp only [isStream]
      exact ⟨⟨⟨rfl, rfl, rfl, rfl, rfl⟩, rfl⟩, trivial⟩
    | some stream =>
      simp only [isStream]
      exact ⟨⟨⟨rfl, rfl, rfl, rfl, rfl⟩, window_of_set_same isStream (by rfl) (by rfl)⟩, rfl⟩

theorem handle_frame_queued (rest : Nat → Nat)
    (counts : ∀ sid, queuedOf c sid = (if frame.stream = some sid then 1 else 0) + rest sid) (sid : Nat) :
    queuedOf (handleFrame c frame) sid = rest sid := by
  have here := counts sid
  unfold handleFrame
  cases isFrame : frame.stream with
  | none =>
    rw [isFrame, if_neg (nofun), Nat.zero_add] at here
    exact here
  | some other =>
    have otherCount := counts other
    rw [isFrame, if_pos rfl] at otherCount
    cases isStream : c.streams other with
    | none =>
      rw [queuedOf, isStream] at otherCount
      simp only at otherCount
      omega
    | some stream =>
      simp only [isStream]
      rw [queued_of_set]
      by_cases same : sid = other
      · subst same
        rw [queued_of_some isStream] at otherCount
        rw [update_self]
        change stream.queued - 1 = rest sid
        omega
      · rw [update_of_ne same, here, isFrame, if_neg (fun h => same (Option.some.inj h).symm),
          Nat.zero_add]

theorem same_windows_trans {c'' : Connection} (first : SameWindows c c') (second : SameWindows c' c'') :
    SameWindows c c'' :=
  ⟨⟨second.sendWindow.trans first.sendWindow, second.initWindow.trans first.initWindow,
    second.lastSid.trans first.lastSid, second.mask.trans first.mask, second.index.trans first.index⟩,
    second.windows.trans first.windows⟩

theorem handle_frames {frames : List OutFrame} (c : Connection) (rest : Nat → Nat)
    (counts : ∀ sid, queuedOf c sid = framesOf sid frames + rest sid) :
    SameWindows c (frames.foldl handleFrame c) ∧ (frames.foldl handleFrame c).lastOut = c.lastOut ∧
      ∀ sid, queuedOf (frames.foldl handleFrame c) sid = rest sid := by
  induction frames generalizing c with
  | nil =>
    refine ⟨⟨⟨rfl, rfl, rfl, rfl, rfl⟩, rfl⟩, rfl, ?_⟩
    intro sid
    have count := counts sid
    rw [framesOf, countP_nil, Nat.zero_add] at count
    exact count
  | cons frame frames ih =>
    have afterFirst : ∀ sid, queuedOf (handleFrame c frame) sid = framesOf sid frames + rest sid := by
      intro sid
      apply handle_frame_queued fun sid => framesOf sid frames + rest sid
      intro other
      rw [counts other, frames_of_cons]
      omega
    rcases handle_frame_same c with ⟨same, sameOut⟩
    rcases ih (handleFrame c frame) afterFirst with ⟨sameRest, sameOutRest, countsRest⟩
    exact ⟨same_windows_trans same sameRest, sameOutRest.trans sameOut, countsRest⟩

theorem frames_of_append (sid : Nat) (first second : List OutFrame) :
    framesOf sid (first ++ second) = framesOf sid first + framesOf sid second := countP_append

theorem frames_of_block_first (sid : Nat) (out : List OutFrame) :
    framesOf sid (blockFirst out) = framesOf sid out := by
  cases out with
  | nil => rfl
  | cons frame rest => rw [blockFirst, frames_of_cons, frames_of_cons]

theorem sound_send_output (sound : Sound s) {sent : Nat} :
    Sound { s with connection := sendOutputQueue s.connection sent } := by
  have counts : ∀ sid, queuedOf { s.connection with
      lastOut := (blockFirst (s.connection.lastOut.reverse.drop sent)).reverse } sid =
        framesOf sid (s.connection.lastOut.reverse.take sent) +
          framesOf sid (blockFirst (s.connection.lastOut.reverse.drop sent)).reverse := by
    intro sid
    have counted := sound.queued.counted sid
    change queuedOf s.connection sid = _
    rw [← counted, framesOf, framesOf, framesOf, countP_reverse, ← framesOf, ← framesOf, ← framesOf,
      frames_of_block_first, ← frames_of_append, take_append_drop, framesOf, framesOf, countP_reverse]
  rcases handle_frames _ _ counts with ⟨same, sameOut, final⟩
  apply sound_of_same sound
  · exact ⟨⟨same.sendWindow, same.initWindow, same.lastSid, same.mask, same.index⟩, same.windows⟩
  · constructor
    · intro sid
      exact (congrArg (framesOf sid) sameOut).trans (final sid).symm
    · change ∀ frame ∈ (List.foldl handleFrame _ _).lastOut, _
      rw [sameOut]
      intro frame mem hasStream notBlocked
      have inRest := mem_reverse.mp mem
      have unblocked : frame ∈ s.connection.lastOut.reverse.drop sent := by
        cases isDrop : s.connection.lastOut.reverse.drop sent with
        | nil =>
          rw [isDrop] at inRest
          cases inRest
        | cons first rest =>
          rw [isDrop, blockFirst] at inRest
          rcases mem_cons.mp inRest with rfl | later
          · exact absurd notBlocked (by simp)
          · exact mem_cons_of_mem _ later
      exact sound.queued.onlyData frame (mem_reverse.mp (mem_of_mem_drop unblocked)) hasStream notBlocked

end Output

section Ending

variable {s : State}

theorem frames_of_filter {other : Nat} (differ : other ≠ sid) (out : List OutFrame) :
    framesOf other (out.filter (fun frame => ¬ isUnsent sid frame)) = framesOf other out := by
  rw [framesOf, countP_filter, framesOf]
  apply countP_congr
  intro frame _
  simp only [isUnsent, Bool.and_eq_true, decide_eq_true_eq]
  constructor
  · exact fun both => both.1
  · intro isOther
    refine ⟨isOther, ?_⟩
    rintro ⟨isSid, -⟩
    exact differ (Option.some.inj (isOther.symm.trans isSid))

theorem sound_cleanup (sound : Sound s)
    (fits : s.connection.sendWindow + unsent sid s.connection.lastOut ≤ maxWindow) :
    Sound ⟨filterCleanup s.connection sid, s.adjusting, { s.ledger with
      dropped := s.ledger.dropped +
        (dataIn s.connection.lastOut - dataIn (filterCleanup s.connection sid).lastOut) }⟩ := by
  have nothing : Sound ⟨s.connection, s.adjusting, { s.ledger with
      dropped := s.ledger.dropped + (dataIn s.connection.lastOut - dataIn s.connection.lastOut) }⟩ := by
    rw [Nat.sub_self]
    exact sound
  unfold filterCleanup
  cases isStream : s.connection.streams sid with
  | none => exact nothing
  | some stream =>
    by_cases isEmpty : stream.queued = 0
    · simp only [isEmpty, if_true]
      exact nothing
    · simp only [isEmpty, if_false]
      have counted := sound.queued.counted sid
      rw [queued_of_some isStream] at counted
      rcases take_unsent_spec sid stream.queued 0 s.connection.lastOut counted.symm with ⟨stay, bytes, left⟩
      have isData := data_in_filter sid s.connection.lastOut sound.queued.onlyData
      have isMax : maxWindow = 2 ^ 31 - 1 := rfl
      have sum : ((toSize (s.connection.sendWindow + unsent sid s.connection.lastOut) : Nat) : Int) =
          s.connection.sendWindow + unsent sid s.connection.lastOut := to_size_eq (by omega) (by omega)
      let kept := s.connection.lastOut.filter (fun frame => ¬ isUnsent sid frame)
      have dropped : dataIn s.connection.lastOut - dataIn kept = unsent sid s.connection.lastOut := by
        change _ = dataIn kept + _ at isData
        omega
      rw [stay] at left
      have framesSound : Sound { s with connection := { s.connection.setStream sid
          { stream with queued := framesOf sid kept } with lastOut := kept } } := by
        apply sound_of_same sound
        · exact ⟨⟨rfl, rfl, rfl, rfl, rfl⟩, window_of_set_same isStream (by rfl) (by rfl)⟩
        · constructor
          · intro other
            change _ = queuedOf (s.connection.setStream sid { stream with queued := framesOf sid _ }) other
            rw [queued_of_set]
            by_cases same : other = sid
            · subst same
              rw [update_self]
            · rw [update_of_ne same, frames_of_filter same]
              exact sound.queued.counted other
          · intro frame mem
            exact sound.queued.onlyData frame (mem_of_mem_filter mem)
      rw [stay, bytes, left, Nat.add_zero, dropped]
      have h2c := sound.balanced.connection
      apply sound_send_window framesSound _ s.ledger.credit s.ledger.queued
        (s.ledger.dropped + unsent sid s.connection.lastOut)
      · rw [sum]
        push_cast
        omega
      · omega

theorem sound_close (sound : Sound s) : Sound { s with connection := closeStream s.connection sid } := by
  unfold closeStream
  cases isStream : s.connection.streams sid with
  | none => exact sound
  | some stream =>
    by_cases isEmpty : stream.queued = 0
    · have indexed := sound.indexed
      have balanced := sound.balanced
      simp only [isEmpty, ne_eq, not_true_eq_false, if_false]
      have windows : windowOf { s.connection with streams := update s.connection.streams sid none } =
          update (windowOf s.connection) sid none := by
        funext other
        unfold windowOf
        by_cases same : other = sid
        · subst same
          simp
        · simp only [update_of_ne same]
      have stillOpen : ∀ other, windowOf { s.connection with
          streams := update s.connection.streams sid none } other ≠ none →
            windowOf { s.connection with streams := update s.connection.streams sid none } other =
              windowOf s.connection other := by
        intro other isOpen
        rw [windows] at isOpen ⊢
        by_cases same : other = sid
        · rw [same, update_self] at isOpen
          cases isOpen rfl
        · rw [update_of_ne same]
      refine ⟨⟨indexed.placed, indexed.distinct, ?_, ?_⟩, ⟨?_, sound.queued.onlyData⟩, ⟨balanced.initLimit,
        balanced.adjusts, ?_, balanced.untouched, balanced.connection, balanced.limit, balanced.frames⟩⟩
      · intro other isOpen
        have same := stillOpen other isOpen
        rw [same] at isOpen
        exact indexed.listed other isOpen
      · intro other above
        rw [windows]
        by_cases same : other = sid
        · rw [same, update_self]
        · rw [update_of_ne same]
          exact indexed.fresh other above
      · intro other
        rw [sound.queued.counted other]
        by_cases same : other = sid
        · subst same
          rw [queued_of_some isStream, isEmpty, queuedOf]
          simp only [update_self]
        · rw [queuedOf, queuedOf]
          simp only [update_of_ne same]
      · intro other window terminated isWindow
        have isOpen : windowOf { s.connection with
            streams := update s.connection.streams sid none } other ≠ none := by
          rw [show windowOf _ other = _ from isWindow]
          exact some_ne_none _
        have same := stillOpen other isOpen
        exact balanced.stream other window terminated (same.symm.trans isWindow)
    · simp only [ne_eq, isEmpty, not_false_eq_true, if_true]
      exact sound

end Ending

section Sending

variable {s : State}

theorem sound_queue_data (sound : Sound s) (precedes : Nat → Nat → Bool) {payload : Nat} {stream : V2Stream}
    (isStream : s.connection.streams sid = some stream) (fits : payload ≤ s.connection.sendWindow)
    (fitsStream : (payload : Int) ≤ max stream.sendWindow 0) :
    Sound ⟨queueData precedes s.connection sid payload stream, s.adjusting,
      s.ledger.send ⟨sid, payload, s.connection.sendWindow, stream.sendWindow⟩⟩ := by
  have balanced := sound.balanced
  have isWindow := window_of_some isStream
  have isOpen : windowOf s.connection sid ≠ none := by
    rw [isWindow]
    exact some_ne_none _
  have ok := balanced.stream _ _ _ isWindow
  have lower := ok.lower
  have upper := ok.upper
  have limit := balanced.limit
  have h2c := balanced.connection
  have isMax : maxWindow = 2 ^ 31 - 1 := rfl
  have baseLimit : base s sid ≤ maxWindow := by
    unfold base baseOf
    cases isAdjusting : s.adjusting with
    | none => exact balanced.initLimit
    | some adjusting =>
      simp only
      split_ifs
      · exact balanced.initLimit
      · exact (balanced.adjusts _ isAdjusting).1
  have below := open_not_fresh sound.indexed isOpen
  have difference : ((toSize (s.connection.sendWindow - payload) : Nat) : Int) =
      s.connection.sendWindow - payload :=
    to_size_eq (by omega) (by omega)
  have streamDifference : toSsize (stream.sendWindow - payload) = stream.sendWindow - payload :=
    to_ssize_eq (by omega) (by omega)
  have windows : windowOf (queueData precedes s.connection sid payload stream) =
      update (windowOf s.connection) sid (some (stream.sendWindow - payload, stream.rstSent)) := by
    rw [← streamDifference]
    exact window_of_set _ _ _
  refine ⟨?_, ?_, ?_⟩
  · have indexed := indexed_set sound.indexed isOpen (window_of_set s.connection sid { stream with
      sendWindow := toSsize (stream.sendWindow - payload)
      queued := stream.queued + 1 }) ⟨rfl, rfl, rfl, rfl, rfl⟩
    exact ⟨indexed.placed, indexed.distinct, indexed.listed, indexed.fresh⟩
  · apply queued_insert sound.queued (queue_frame_perm _ _ _ _)
    · intro _ _
      rfl
    · intro other
      change queuedOf (s.connection.setStream sid { stream with
        sendWindow := toSsize (stream.sendWindow - payload)
        queued := stream.queued + 1 }) other = _
      rw [queued_of_set]
      by_cases same : other = sid
      · subst same
        rw [update_self, if_pos rfl, queued_of_some isStream, Nat.add_comm]
      · rw [update_of_ne same, if_neg (fun h => same (Option.some.inj h).symm), Nat.zero_add]
  · refine ⟨balanced.initLimit, balanced.adjusts, ?_, ?_, ?_, ?_, ?_⟩
    · apply stream_update balanced windows
      · intro other differ
        exact ⟨rfl, rfl, update_of_ne differ _ _⟩
      · change WindowOk (base s sid) (s.ledger.streamCredit sid)
          (update s.ledger.streamQueued sid (s.ledger.streamQueued sid + payload) sid) _ _
        rw [update_self]
        constructor
        · omega
        · omega
        · intro notTerminated
          have balance := ok.balance notTerminated
          push_cast
          omega
    · intro other above
      change s.connection.lastSid < other at above
      rcases balanced.untouched other above with ⟨noCredit, noData⟩
      refine ⟨noCredit, ?_⟩
      change update s.ledger.streamQueued sid (s.ledger.streamQueued sid + payload) other = 0
      rw [update_of_ne (by omega)]
      exact noData
    · change ((toSize (s.connection.sendWindow - payload) : Nat) : Int) =
        defaultWindow + s.ledger.credit - (((s.ledger.queued + payload : Nat) : Int) - s.ledger.dropped)
      rw [difference]
      push_cast
      omega
    · change toSize (s.connection.sendWindow - payload) ≤ maxWindow
      omega
    · intro frame mem
      rcases mem_append.mp mem with old | new
      · exact balanced.frames frame old
      · rw [mem_singleton.mp new]
        exact ⟨fits, fitsStream⟩

theorem sound_send_frames (frameSize limit : Nat) (chain : List Buf)
    (c : Connection) {adjusting : Option Adjusting} {ledger : Ledger} (frames : List DataFrame)
    (sound : Sound ⟨c, adjusting, frames.foldl Ledger.send ledger⟩) (within : limit ≤ c.sendWindow)
    (withinStream : ∀ stream, c.streams sid = some stream → (limit : Int) ≤ max stream.sendWindow 0) :
    Sound ⟨(sendFrames precedes sid alloc frameSize limit chain c frames).1, adjusting,
      (sendFrames precedes sid alloc frameSize limit chain c frames).2.foldl Ledger.send ledger⟩ := by
  induction alloc generalizing frameSize limit chain c frames with
  | zero => exact sound
  | succ alloc ih =>
    cases isStream : c.streams sid with
    | none =>
      simp only [sendFrames, isStream]
      exact sound
    | some stream =>
      simp only [sendFrames, isStream]
      generalize isSize : (if frameSize > limit then limit else frameSize) = size
      have sizeWithin : size ≤ limit := by
        rw [← isSize]
        split_ifs <;> omega
      generalize isPayload :
        (if (fillFrame size chain).2 = [] then size - (fillFrame size chain).1 else size) = payload
      have payloadWithin : payload ≤ limit := by
        rw [← isPayload]
        split_ifs <;> omega
      have limitStream := withinStream stream isStream
      have next := sound_queue_data sound precedes isStream (show payload ≤ c.sendWindow by omega)
        (show (payload : Int) ≤ max stream.sendWindow 0 by omega)
      have sound' : Sound ⟨queueData precedes c sid payload stream, adjusting,
          (frames ++ [(⟨sid, payload, c.sendWindow, stream.sendWindow⟩ : DataFrame)]).foldl
            Ledger.send ledger⟩ := by
        rw [foldl_append]
        exact next
      split_ifs with isEnd isFull isUsed
      · exact sound'
      · exact sound'
      · exact sound_exhaust sound' sid
      · have isMax : maxWindow = 2 ^ 31 - 1 := rfl
        have connectionLimit := sound.balanced.limit
        change c.sendWindow ≤ maxWindow at connectionLimit
        have ok := sound.balanced.stream sid _ _ (window_of_some isStream)
        have upper := ok.upper
        have difference : ((toSize (c.sendWindow - payload) : Nat) : Int) = c.sendWindow - payload :=
          to_size_eq (by omega) (by omega)
        have streamDifference : toSsize (stream.sendWindow - payload) = stream.sendWindow - payload :=
          to_ssize_eq (by omega) (by omega)
        apply ih _ _ _ _ _ sound'
        · change limit - payload ≤ toSize (c.sendWindow - payload)
          omega
        · intro stream' isStream'
          change update c.streams sid (some _) sid = some stream' at isStream'
          rw [update_self] at isStream'
          rw [← Option.some.inj isStream']
          change ((limit - payload : Nat) : Int) ≤ max (toSsize (stream.sendWindow - payload)) 0
          rw [streamDifference]
          omega

theorem sound_send_chain (sound : Sound s) {chain : List Buf}
    {limit chunkSize : Nat} :
    Sound ⟨(sendChain precedes s.connection sid chain limit chunkSize alloc).1, s.adjusting,
      (sendChain precedes s.connection sid chain limit chunkSize alloc).2.foldl Ledger.send s.ledger⟩ := by
  unfold sendChain
  cases isStream : s.connection.streams sid with
  | none => exact sound
  | some stream =>
    cases skipEmpty chain with
    | nil => exact sound
    | cons buf chain =>
      simp only
      split_ifs with declined
      · exact sound_exhaust sound sid
      all_goals
        apply sound_send_frames _ _ _ s.connection [] sound
        · omega
        · intro stream' isStream'
          rw [isStream] at isStream'
          rw [← Option.some.inj isStream']
          omega

end Sending

/-- The frames that a request leaves unsent fit into the window of the
connection when it ends. -/
def Fits (s : State) : Event → Prop
  | .cleanup sid => s.connection.sendWindow + unsent sid s.connection.lastOut ≤ maxWindow
  | _ => True

theorem sound_step {event : Event} (sound : Sound s) (fits : Fits s event)
    (isStep : step s event = some s') : Sound s' := by
  cases event with
  | windowUpdate sid field =>
    cases isUpdate : stateWindowUpdate s.connection sid field with
    | none =>
      rw [step, isUpdate] at isStep
      simp at isStep
    | some result =>
      have updated := sound_window_update sound isUpdate
      simp only [step, isUpdate] at isStep
      by_cases busy : s.adjusting.isSome
      · rw [if_pos busy] at isStep
        cases isStep
      · rw [if_neg busy] at isStep
        rw [← Option.some.inj isStep]
        exact updated
  | initialWindowSize value =>
    simp only [step] at isStep
    split_ifs at isStep with refused
    rw [not_or] at refused
    rw [← Option.some.inj isStep]
    apply sound_initial_window_size sound _ (Nat.le_of_not_lt refused.2)
    simpa using refused.1
  | adjustNext =>
    simp only [step] at isStep
    split at isStep
    · next delta value sid remaining isAdjusting =>
        rw [← Option.some.inj isStep]
        exact sound_adjust_next sound isAdjusting
    · cases isStep
  | adjustDone =>
    simp only [step] at isStep
    split at isStep
    · next delta value isAdjusting =>
        rw [← Option.some.inj isStep]
        exact sound_adjust_done sound isAdjusting
    · cases isStep
  | maxFrameSize value =>
    simp only [step] at isStep
    split_ifs at isStep
    rw [← Option.some.inj isStep]
    apply sound_of_same sound
    · exact ⟨⟨rfl, rfl, rfl, rfl, rfl⟩, rfl⟩
    · exact ⟨sound.queued.counted, sound.queued.onlyData⟩
  | openStream sid =>
    simp only [step] at isStep
    split_ifs at isStep with refused
    rw [not_or, not_or] at refused
    rw [← Option.some.inj isStep]
    apply sound_create_stream sound _ (Nat.lt_of_not_ge refused.2.2)
    simpa using refused.1
  | addNode sid =>
    simp only [step] at isStep
    split_ifs at isStep
    rw [← Option.some.inj isStep]
    exact sound_add_node sound sid
  | removeNode sid =>
    simp only [step] at isStep
    split_ifs at isStep with refused
    rw [not_or] at refused
    rw [← Option.some.inj isStep]
    apply sound_remove_node sound
    simpa using refused.2
  | sendChain precedes sid chain limit chunkSize alloc =>
    rw [← Option.some.inj isStep]
    exact sound_send_chain sound
  | queueHeaders sid length =>
    rw [← Option.some.inj isStep]
    exact sound_queue_headers sound
  | queueControl length =>
    rw [← Option.some.inj isStep]
    exact sound_queue_control sound
  | sendOutput sent =>
    rw [← Option.some.inj isStep]
    exact sound_send_output sound
  | cleanup sid =>
    rw [← Option.some.inj isStep]
    exact sound_cleanup sound fits
  | close sid =>
    rw [← Option.some.inj isStep]
    exact sound_close sound

theorem sound_new {frameSize mask : Nat} : Sound ⟨newConnection frameSize mask, none, newLedger⟩ := by
  refine ⟨⟨?_, ?_, ?_, ?_⟩, ⟨?_, ?_⟩, ⟨?_, no_adjusts, ?_, ?_, ?_, ?_, ?_⟩⟩
  · intro i sid mem
    cases mem
  · intro i
    exact nodup_nil
  · intro sid isOpen
    cases isOpen rfl
  · intro sid above
    rfl
  · intro sid
    rfl
  · intro frame mem
    cases mem
  · exact (by decide : defaultWindow ≤ maxWindow)
  · intro sid window terminated isWindow
    cases isWindow
  · intro sid above
    exact ⟨rfl, rfl⟩
  · rfl
  · exact (by decide : defaultWindow ≤ maxWindow)
  · intro frame mem
    cases mem

structure FlowControlled (s : State) : Prop where
  stream : ∀ sid stream, s.connection.streams sid = some stream →
    stream.rstSent = false → s.adjusting = none →
    stream.sendWindow =
      (s.connection.initWindow : Int) + s.ledger.streamCredit sid - s.ledger.streamQueued sid
  adjusted : ∀ sid stream, s.connection.streams sid = some stream → stream.rstSent = false →
    stream.sendWindow = (base s sid : Int) + s.ledger.streamCredit sid - s.ledger.streamQueued sid
  connection : (s.connection.sendWindow : Int) =
    65535 + s.ledger.credit - ((s.ledger.queued : Int) - s.ledger.dropped)
  streamLimit : ∀ sid stream, s.connection.streams sid = some stream → stream.sendWindow ≤ 2 ^ 31 - 1
  connectionLimit : s.connection.sendWindow ≤ 2 ^ 31 - 1
  frames : ∀ frame ∈ s.ledger.frames, frame.payload ≤ frame.connectionWindow ∧
    (frame.payload : Int) ≤ max frame.streamWindow 0

/-- The windows are right in every state of every run in which the requests that
end leave no more unsent than fits. -/
theorem windows_in_balance {s : State} (reached : Reachable (connectionSystem Fits) s) :
    FlowControlled s := by
  have sound : Sound s := by
    apply reachable_invariant _ _ reached
    · rintro state ⟨frameSize, mask, rfl⟩
      exact sound_new
    · rintro before event after sound ⟨fits, isStep⟩
      exact sound_step sound fits isStep
  have balanced := sound.balanced
  refine ⟨?_, ?_, balanced.connection, ?_, balanced.limit, balanced.frames⟩
  · intro sid stream isStream notTerminated isIdle
    have balance := (balanced.stream sid _ _ (window_of_some isStream)).balance notTerminated
    rw [base, isIdle] at balance
    exact balance
  · intro sid stream isStream notTerminated
    exact (balanced.stream sid _ _ (window_of_some isStream)).balance notTerminated
  · intro sid stream isStream
    exact (balanced.stream sid _ _ (window_of_some isStream)).upper

theorem reachable_events (events : List Event)
    (permitted : ∀ event ∈ events, ∀ s, allowed s event)
    (reached : Reachable (connectionSystem allowed) s) (isRun : events.foldlM step s = some s') :
    Reachable (connectionSystem allowed) s' := by
  induction events generalizing s with
  | nil =>
    rw [← Option.some.inj isRun]
    exact reached
  | cons event events ih =>
    rcases bind_eq_some_iff.mp isRun with ⟨middle, isStep, isRest⟩
    have next : (connectionSystem allowed).next s event middle :=
      ⟨permitted event (mem_cons_self ..) s, isStep⟩
    exact ih (fun other mem => permitted other (mem_cons_of_mem _ mem))
      (reachable_next reached next) isRest

def firstState : State := ⟨newConnection 16384 31, none, newLedger⟩

theorem first_reachable : Reachable (connectionSystem allowed) firstState :=
  reachable_initial ⟨16384, 31, rfl⟩

/-- A response of 100000 bytes of which the first frame waits for the socket. -/
def blockedResponse : List Event :=
  [.openStream 1, .queueHeaders 1 50, .sendChain (fun _ _ => true) 1 [⟨65535, true⟩] 0 8192 100,
    .sendOutput 1]

theorem windows_of_blocked_response : ∃ s, Reachable (connectionSystem Fits) s ∧ FlowControlled s ∧
    s.connection.sendWindow = 0 ∧ s.ledger.queued = 65535 := by
  have evaluated : (blockedResponse.foldlM step firstState).map
      (fun s => (s.connection.sendWindow, s.ledger.queued)) = some (0, 65535) := by
    decide
  rcases map_eq_some_iff.mp evaluated with ⟨s, isRun, values⟩
  have permitted : ∀ event ∈ blockedResponse, ∀ s, Fits s event := by
    intro event mem s
    simp only [blockedResponse, mem_cons, not_mem_nil, or_false] at mem
    rcases mem with rfl | rfl | rfl | rfl <;> exact trivial
  have reached := reachable_events blockedResponse permitted first_reachable isRun
  rcases Prod.mk.inj values with ⟨isWindow, isQueued⟩
  exact ⟨s, reached, windows_in_balance reached, isWindow, isQueued⟩

/-- The peer opens the window of the connection again and breaks the flow control
of the stream, whose request then ends. -/
def violatingPeer : List Event :=
  [.windowUpdate 0 0x7fffffff, .windowUpdate 1 0x7fffffff, .windowUpdate 1 1, .cleanup 1]

/-- The frames of the stream are taken out of the queue, and the window of the
connection is larger than 2 ^ 31 - 1. -/
theorem cleanup_exceeds_limit : ∃ s, Reachable (connectionSystem fun _ _ => True) s ∧
    s.connection.sendWindow = 2 ^ 31 - 1 + 57343 ∧ ¬ FlowControlled s := by
  have evaluated : ((blockedResponse ++ violatingPeer).foldlM step firstState).map
      (fun s => s.connection.sendWindow) = some (2 ^ 31 - 1 + 57343) := by
    decide
  rcases map_eq_some_iff.mp evaluated with ⟨s, isRun, isWindow⟩
  refine ⟨s, reachable_events _ (fun _ _ _ => trivial) first_reachable isRun, isWindow, ?_⟩
  intro controlled
  have limit := controlled.connectionLimit
  omega

end ServerCore.NginxHttpV2SendFlow
