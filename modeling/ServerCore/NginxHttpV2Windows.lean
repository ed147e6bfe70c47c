import Mathlib.Data.List.Nodup
import ServerCore.NginxHttpV2FlowControl
import ServerCore.TransitionSystem

/-!
# What the send windows stand for

The ledger of a connection records what the peer granted and what was queued
for it. The loop of `ngx_http_v2_adjust_windows` is a sequence of events, since
the write handlers that it calls send on other streams before it has come to
them.
-/

namespace ServerCore.NginxHttpV2Windows

open NginxHttpV2FlowControl TransitionSystem List Option Function

variable {value : Nat} {x : Int}
variable {terminated accepted : Bool} {sid : Nat} {field : UInt32} {c : Connection}

structure Adjusting where
  delta : Int
  value : Nat
  remaining : List Nat

/-- Accepted increments and queued bytes, those that were taken out of the queue
again, and the DATA frames. -/
structure Ledger where
  credit : Nat
  queued : Nat
  dropped : Nat
  streamCredit : Nat → Nat
  streamQueued : Nat → Nat
  frames : List DataFrame

structure State where
  connection : Connection
  adjusting : Option Adjusting
  ledger : Ledger

inductive Event where
  | windowUpdate (sid : Nat) (field : UInt32)
  | initialWindowSize (value : UInt32)
  | adjustNext
  | adjustDone
  | maxFrameSize (value : Nat)
  | openStream (sid : Nat)
  | addNode (sid : Nat)
  | removeNode (sid : Nat)
  | sendChain (precedes : Nat → Nat → Bool) (sid : Nat) (chain : List Buf) (limit chunkSize alloc : Nat)
  | queueHeaders (sid length : Nat)
  | queueControl (length : Nat)
  | sendOutput (sent : Nat)
  | cleanup (sid : Nat)
  | close (sid : Nat)

namespace Ledger

def accept (ledger : Ledger) (sid window : Nat) : Ledger :=
  if sid = 0 then { ledger with credit := ledger.credit + window }
  else { ledger with
    streamCredit := update ledger.streamCredit sid (ledger.streamCredit sid + window) }

def send (ledger : Ledger) (frame : DataFrame) : Ledger :=
  { ledger with
    queued := ledger.queued + frame.payload
    streamQueued := update ledger.streamQueued frame.stream
      (ledger.streamQueued frame.stream + frame.payload)
    frames := ledger.frames ++ [frame] }

end Ledger

def dataIn : List OutFrame → Nat
  | [] => 0
  | frame :: rest => (if frame.isData then frame.length else 0) + dataIn rest

/-- What an event does; `none` where it is not possible or ends the connection.
The frames of the peer wait until the windows are adjusted. -/
def step (s : State) : Event → Option State
  | .windowUpdate sid field =>
    if s.adjusting.isSome then none
    else
      match stateWindowUpdate s.connection sid field with
      | none => none
      | some (c, accepted) =>
        some { s with
          connection := c
          ledger := if accepted then s.ledger.accept sid (parseWindow field) else s.ledger }
  | .initialWindowSize value =>
    if s.adjusting.isSome ∨ value.toNat > maxWindow then none
    else
      some { s with
        adjusting := some {
          delta := toSsize (toSize (value.toNat - s.connection.initWindow))
          value := value.toNat
          remaining := s.connection.nodes } }
  | .adjustNext =>
    match s.adjusting with
    | some ⟨delta, value, sid :: remaining⟩ =>
      some { s with
        connection := adjustWindow s.connection delta sid
        adjusting := some ⟨delta, value, remaining⟩ }
    | _ => none
  | .adjustDone =>
    match s.adjusting with
    | some ⟨_, value, []⟩ =>
      some { s with
        connection := { s.connection with initWindow := value }
        adjusting := none }
    | _ => none
  | .maxFrameSize value =>
    if s.adjusting.isSome ∨ value > 2 ^ 24 - 1 ∨ value < 2 ^ 14 then none
    else some { s with connection := { s.connection with frameSize := value } }
  | .openStream sid =>
    if s.adjusting.isSome ∨ sid % 2 = 0 ∨ s.connection.lastSid ≥ sid then none
    else some { s with connection := createStream s.connection sid }
  | .addNode sid => if s.adjusting.isSome then none else
      some { s with connection := s.connection.addNode sid }
  | .removeNode sid =>
    if s.adjusting.isSome ∨ (s.connection.streams sid).isSome then none
    else some { s with connection := s.connection.removeNode sid }
  | .sendChain precedes sid chain limit chunkSize alloc =>
    let sent := sendChain precedes s.connection sid chain limit chunkSize alloc
    some { s with connection := sent.1, ledger := sent.2.foldl Ledger.send s.ledger }
  | .queueHeaders sid length => some { s with connection := queueHeaders s.connection sid length }
  | .queueControl length =>
    some { s with connection := { s.connection with
      lastOut := queueBlockedFrame ⟨none, length, false, false⟩ s.connection.lastOut } }
  | .sendOutput sent => some { s with connection := sendOutputQueue s.connection sent }
  | .cleanup sid =>
    let c := filterCleanup s.connection sid
    some { s with
      connection := c
      ledger := { s.ledger with
        dropped := s.ledger.dropped + (dataIn s.connection.lastOut - dataIn c.lastOut) } }
  | .close sid => some { s with connection := closeStream s.connection sid }

def newConnection (frameSize streamsIndexMask : Nat) : Connection :=
  ⟨defaultWindow, defaultWindow, frameSize, 0, streamsIndexMask, fun _ => [], fun _ => none, []⟩

def newLedger : Ledger := ⟨0, 0, 0, fun _ => 0, fun _ => 0, []⟩

/-- The events that meet `allowed` on one connection. -/
def connectionSystem (allowed : State → Event → Prop) : System State Event where
  initial s := ∃ frameSize mask, s = ⟨newConnection frameSize mask, none, newLedger⟩
  next before event after := allowed before event ∧ step before event = some after

theorem to_size_eq (nonneg : 0 ≤ x) (small : x < 2 ^ 64) : ((toSize x : Nat) : Int) = x := by
  rw [toSize, Int.emod_eq_of_lt nonneg small, Int.toNat_of_nonneg nonneg]

theorem word_cast : ((2 ^ 64 : Nat) : Int) = 2 ^ 64 := rfl

theorem to_ssize_eq (lower : -2 ^ 63 ≤ x) (upper : x < 2 ^ 63) : toSsize x = x := by
  apply Int.bmod_eq_of_le_mul_two
  · omega
  · omega

theorem to_ssize_to_size (lower : -2 ^ 63 ≤ x) (upper : x < 2 ^ 63) :
    toSsize ((toSize x : Nat) : Int) = x := by
  have nonneg : 0 ≤ x % 2 ^ 64 := Int.emod_nonneg _ (by decide)
  have isEmod : ((toSize x : Nat) : Int) = x % ((2 ^ 64 : Nat) : Int) := by
    rw [toSize, Int.toNat_of_nonneg nonneg, word_cast]
  rw [isEmod, toSsize, Int.emod_bmod]
  exact to_ssize_eq lower upper

def framesOf (sid : Nat) (out : List OutFrame) : Nat := out.countP fun frame => frame.stream = some sid

def unsent (sid : Nat) : List OutFrame → Nat
  | [] => 0
  | frame :: rest => (if frame.stream = some sid ∧ frame.blocked = false then frame.length else 0) +
      unsent sid rest

def isUnsent (sid : Nat) (frame : OutFrame) : Bool := frame.stream = some sid ∧ frame.blocked = false

theorem queue_frame_perm (precedes : Nat → Nat → Bool) (sid : Nat) (frame : OutFrame) (out : List OutFrame) :
    (queueFrame precedes sid frame out).Perm (frame :: out) := by
  induction out with
  | nil => exact List.Perm.refl _
  | cons first rest ih =>
    rw [queueFrame]
    cases first.stream with
    | none => exact List.Perm.refl _
    | some other =>
      change (if _ then _ else _ : List OutFrame).Perm _
      split_ifs
      · exact List.Perm.refl _
      · exact (ih.cons first).trans (List.Perm.swap frame first rest)

theorem queue_blocked_frame_perm (frame : OutFrame) (out : List OutFrame) :
    (queueBlockedFrame frame out).Perm (frame :: out) := by
  induction out with
  | nil => exact List.Perm.refl _
  | cons first rest ih =>
    rw [queueBlockedFrame]
    split_ifs
    · exact List.Perm.refl _
    · exact (ih.cons first).trans (List.Perm.swap frame first rest)

variable {sid : Nat} {c c' : Connection} {stream stream' : V2Stream} {s : State} {window : Int}

theorem unsent_of_no_frames {out : List OutFrame} (noFrames : framesOf sid out = 0) :
    unsent sid out = 0 ∧ out.filter (fun frame => ¬ isUnsent sid frame) = out := by
  have others := countP_eq_zero.mp noFrames
  constructor
  · induction out with
    | nil => rfl
    | cons first rest ih =>
      have notMine : first.stream ≠ some sid := by simpa using others first (mem_cons_self ..)
      have tail : ∀ frame ∈ rest, ¬ (decide (frame.stream = some sid)) = true :=
        fun frame mem => others frame (mem_cons_of_mem _ mem)
      rw [unsent, if_neg (fun both => notMine both.1), Nat.zero_add]
      exact ih (countP_eq_zero.mpr tail) tail
  · apply filter_eq_self.mpr
    intro frame mem
    have notMine : frame.stream ≠ some sid := by simpa using others frame mem
    simp [isUnsent, notMine]

theorem frames_of_cons (sid : Nat) (frame : OutFrame) (out : List OutFrame) :
    framesOf sid (frame :: out) = (if frame.stream = some sid then 1 else 0) + framesOf sid out := by
  rw [framesOf, countP_cons, framesOf, Nat.add_comm]
  simp

theorem take_unsent_spec (sid queued kept : Nat) (out : List OutFrame)
    (isCount : queued = framesOf sid out + kept) :
    (takeUnsent sid queued out).1 = out.filter (fun frame => ¬ isUnsent sid frame) ∧
      (takeUnsent sid queued out).2.1 = unsent sid out ∧
      (takeUnsent sid queued out).2.2 = framesOf sid (takeUnsent sid queued out).1 + kept := by
  induction out generalizing queued kept with
  | nil => exact ⟨rfl, rfl, isCount⟩
  | cons first rest ih =>
    rw [frames_of_cons] at isCount
    by_cases mine : first.stream = some sid ∧ first.blocked = false
    · have isMine : isUnsent sid first = true := by simp [isUnsent, mine]
      rw [if_pos mine.1] at isCount
      rw [takeUnsent, if_pos mine, unsent, if_pos mine, filter_cons_of_neg (by simp [isMine])]
      split_ifs with isLast
      · have noFrames : framesOf sid rest = 0 := by omega
        rcases unsent_of_no_frames noFrames with ⟨noBytes, same⟩
        refine ⟨same.symm, ?_, ?_⟩
        · rw [noBytes]
          rfl
        · change 0 = framesOf sid rest + kept
          omega
      · rcases ih (queued - 1) kept (by omega) with ⟨stay, bytes, left⟩
        refine ⟨stay, ?_, left⟩
        rw [← bytes]
    · have notMine : isUnsent sid first = false := by simpa [isUnsent] using mine
      rw [takeUnsent, if_neg mine, unsent, if_neg mine, filter_cons_of_pos (by simp [notMine]), Nat.zero_add]
      rcases ih queued (kept + if first.stream = some sid then 1 else 0) (by omega) with ⟨stay, bytes, left⟩
      refine ⟨?_, bytes, ?_⟩
      · rw [← stay]
      · rw [frames_of_cons, left]
        omega

theorem data_in_filter (sid : Nat) (out : List OutFrame)
    (onlyData : ∀ frame ∈ out, frame.stream ≠ none → frame.blocked = false → frame.isData = true) :
    dataIn out = dataIn (out.filter (fun frame => ¬ isUnsent sid frame)) + unsent sid out := by
  induction out with
  | nil => rfl
  | cons first rest ih =>
    have tail := ih fun frame mem => onlyData frame (mem_cons_of_mem _ mem)
    by_cases mine : first.stream = some sid ∧ first.blocked = false
    · have isMine : isUnsent sid first = true := by simp [isUnsent, mine]
      have isData := onlyData first (mem_cons_self ..) (by simp [mine.1]) mine.2
      rw [filter_cons_of_neg (by simp [isMine]), dataIn, unsent, if_pos mine, if_pos isData, tail]
      omega
    · have notMine : isUnsent sid first = false := by simpa [isUnsent] using mine
      rw [filter_cons_of_pos (by simp [notMine]), dataIn, dataIn, unsent, if_neg mine, tail]
      omega

def windowOf (c : Connection) (sid : Nat) : Option (Int × Bool) :=
  (c.streams sid).map fun stream => (stream.sendWindow, stream.rstSent)

def queuedOf (c : Connection) (sid : Nat) : Nat :=
  match c.streams sid with
  | none => 0
  | some stream => stream.queued

/-- The initial window that counts for a stream: while windows are adjusted, the
new one for those that the loop has passed. -/
def baseOf (initWindow : Nat) (adjusting : Option Adjusting) (sid : Nat) : Nat :=
  match adjusting with
  | none => initWindow
  | some adjusting => if sid ∈ adjusting.remaining then initWindow else adjusting.value

def base (s : State) (sid : Nat) : Nat := baseOf s.connection.initWindow s.adjusting sid

structure WindowOk (base credit queued : Nat) (window : Int) (terminated : Bool) : Prop where
  lower : (base : Int) - maxWindow ≤ window
  upper : window ≤ maxWindow
  balance : terminated = false → window = base + credit - queued

structure Indexed (c : Connection) : Prop where
  placed : ∀ i sid, sid ∈ c.streamsIndex i → c.index sid = i
  distinct : ∀ i, (c.streamsIndex i).Nodup
  listed : ∀ sid, windowOf c sid ≠ none → sid ∈ c.streamsIndex (c.index sid)
  fresh : ∀ sid, c.lastSid < sid → windowOf c sid = none

structure Queued (c : Connection) : Prop where
  counted : ∀ sid, framesOf sid c.lastOut = queuedOf c sid
  onlyData : ∀ frame ∈ c.lastOut, frame.stream ≠ none → frame.blocked = false → frame.isData = true

structure Balanced (s : State) : Prop where
  initLimit : s.connection.initWindow ≤ maxWindow
  adjusts : ∀ adjusting, s.adjusting = some adjusting → adjusting.value ≤ maxWindow ∧
    adjusting.delta = (adjusting.value : Int) - s.connection.initWindow ∧ adjusting.remaining.Nodup
  stream : ∀ sid window terminated, windowOf s.connection sid = some (window, terminated) →
    WindowOk (base s sid) (s.ledger.streamCredit sid) (s.ledger.streamQueued sid) window terminated
  untouched : ∀ sid, s.connection.lastSid < sid →
    s.ledger.streamCredit sid = 0 ∧ s.ledger.streamQueued sid = 0
  connection : (s.connection.sendWindow : Int) =
    defaultWindow + s.ledger.credit - ((s.ledger.queued : Int) - s.ledger.dropped)
  limit : s.connection.sendWindow ≤ maxWindow
  frames : ∀ frame ∈ s.ledger.frames, frame.payload ≤ frame.connectionWindow ∧
    (frame.payload : Int) ≤ max frame.streamWindow 0

structure Sound (s : State) : Prop where
  indexed : Indexed s.connection
  queued : Queued s.connection
  balanced : Balanced s

theorem window_of_set (c : Connection) (sid : Nat) (stream : V2Stream) : windowOf (c.setStream sid stream) =
      update (windowOf c) sid (some (stream.sendWindow, stream.rstSent)) := by
  funext other
  unfold windowOf Connection.setStream
  by_cases same : other = sid
  · subst same
    simp
  · simp only [update_of_ne same]

theorem window_of_some (isStream : c.streams sid = some stream) :
    windowOf c sid = some (stream.sendWindow, stream.rstSent) := by
  rw [windowOf, isStream]
  rfl

theorem window_of_set_same
    (isStream : c.streams sid = some stream) (sameWindow : stream'.sendWindow = stream.sendWindow)
    (sameRst : stream'.rstSent = stream.rstSent) : windowOf (c.setStream sid stream') = windowOf c := by
  rw [window_of_set, sameWindow, sameRst, ← window_of_some isStream, update_eq_self]

theorem queued_of_set (c : Connection) (sid : Nat) (stream : V2Stream) :
    queuedOf (c.setStream sid stream) = update (queuedOf c) sid stream.queued := by
  funext other
  unfold queuedOf Connection.setStream
  by_cases same : other = sid
  · subst same
    simp only [update_self]
  · simp only [update_of_ne same]

theorem queued_of_some (isStream : c.streams sid = some stream) : queuedOf c sid = stream.queued := by
  rw [queuedOf, isStream]

structure SameScalars (c c' : Connection) : Prop where
  sendWindow : c'.sendWindow = c.sendWindow
  initWindow : c'.initWindow = c.initWindow
  lastSid : c'.lastSid = c.lastSid
  mask : c'.streamsIndexMask = c.streamsIndexMask
  index : c'.streamsIndex = c.streamsIndex

structure SameWindows (c c' : Connection) : Prop extends SameScalars c c' where
  windows : windowOf c' = windowOf c

theorem indexed_of_same (same : SameWindows c c') (indexed : Indexed c) : Indexed c' := by
  have sameIndex : ∀ sid, c'.index sid = c.index sid := by
    intro sid
    rw [Connection.index, Connection.index, same.mask]
  constructor
  · intro i sid mem
    rw [same.index] at mem
    rw [sameIndex]
    exact indexed.placed i sid mem
  · intro i
    rw [same.index]
    exact indexed.distinct i
  · intro sid isOpen
    rw [same.windows] at isOpen
    rw [same.index, sameIndex]
    exact indexed.listed sid isOpen
  · intro sid above
    rw [same.lastSid] at above
    rw [same.windows]
    exact indexed.fresh sid above

theorem balanced_of_same (same : SameWindows s.connection c')
    (balanced : Balanced s) : Balanced { s with connection := c' } := by
  have sameBase : ∀ sid, base { s with connection := c' } sid = base s sid := by
    intro sid
    change baseOf c'.initWindow s.adjusting sid = baseOf s.connection.initWindow s.adjusting sid
    rw [same.initWindow]
  constructor
  · rw [same.initWindow]
    exact balanced.initLimit
  · intro adjusting isAdjusting
    rw [same.initWindow]
    exact balanced.adjusts adjusting isAdjusting
  · intro sid window terminated isWindow
    rw [same.windows] at isWindow
    rw [sameBase]
    exact balanced.stream sid window terminated isWindow
  · intro sid above
    rw [same.lastSid] at above
    exact balanced.untouched sid above
  · rw [same.sendWindow]
    exact balanced.connection
  · rw [same.sendWindow]
    exact balanced.limit
  · exact balanced.frames

theorem queued_insert (queued : Queued c) {frame : OutFrame} (isPerm : c'.lastOut.Perm (frame :: c.lastOut))
    (isData : frame.stream ≠ none → frame.blocked = false → frame.isData = true)
    (counts : ∀ sid, queuedOf c' sid = (if frame.stream = some sid then 1 else 0) + queuedOf c sid) :
    Queued c' := by
  constructor
  · intro sid
    rw [counts sid, ← queued.counted sid, ← frames_of_cons]
    exact isPerm.countP_eq _
  · intro other mem
    rcases mem_cons.mp (isPerm.mem_iff.mp mem) with rfl | old
    · exact isData
    · exact queued.onlyData other old

theorem stream_update {s' : State} (balanced : Balanced s)
    (windows : windowOf s'.connection = update (windowOf s.connection) sid (some (window, terminated)))
    (others : ∀ other ≠ sid, base s' other = base s other ∧
      s'.ledger.streamCredit other = s.ledger.streamCredit other ∧
      s'.ledger.streamQueued other = s.ledger.streamQueued other)
    (here : WindowOk (base s' sid) (s'.ledger.streamCredit sid)
      (s'.ledger.streamQueued sid) window terminated) :
    ∀ other window' terminated', windowOf s'.connection other = some (window', terminated') →
      WindowOk (base s' other) (s'.ledger.streamCredit other)
        (s'.ledger.streamQueued other) window' terminated' := by
  intro other window' terminated' isWindow
  rw [windows] at isWindow
  by_cases same : other = sid
  · subst same
    rw [update_self] at isWindow
    rcases Prod.mk.inj (Option.some.inj isWindow) with ⟨rfl, rfl⟩
    exact here
  · rw [update_of_ne same] at isWindow
    rcases others other same with ⟨sameBase, sameCredit, sameQueued⟩
    rw [sameBase, sameCredit, sameQueued]
    exact balanced.stream other window' terminated' isWindow

theorem open_not_fresh (indexed : Indexed c) (isOpen : windowOf c sid ≠ none) : sid ≤ c.lastSid := by
  apply Nat.le_of_not_lt
  intro above
  exact isOpen (indexed.fresh sid above)

theorem indexed_set (indexed : Indexed c) {entry : Int × Bool}
    (isOpen : windowOf c sid ≠ none) (windows : windowOf c' = update (windowOf c) sid (some entry))
    (same : SameScalars c c') : Indexed c' := by
  have sameIndex : ∀ other, c'.index other = c.index other := by
    intro other
    rw [Connection.index, Connection.index, same.mask]
  constructor
  · intro i other mem
    rw [same.index] at mem
    rw [sameIndex]
    exact indexed.placed i other mem
  · intro i
    rw [same.index]
    exact indexed.distinct i
  · intro other otherOpen
    rw [same.index, sameIndex]
    apply indexed.listed
    by_cases isSid : other = sid
    · rw [isSid]
      exact isOpen
    · rw [windows, update_of_ne isSid] at otherOpen
      exact otherOpen
  · intro other above
    rw [same.lastSid] at above
    have differ : other ≠ sid := by
      have below := open_not_fresh indexed isOpen
      omega
    rw [windows, update_of_ne differ]
    exact indexed.fresh other above

section Terminating

variable {s : State} {sid : Nat} {stream : V2Stream}

theorem terminate_windows (isStream : s.connection.streams sid = some stream) :
    windowOf (terminateStream s.connection sid stream) =
      update (windowOf s.connection) sid (some (stream.sendWindow, true)) := by
  unfold terminateStream
  split_ifs with already
  · rw [← already, ← window_of_some isStream, update_eq_self]
  · exact window_of_set _ _ _

theorem terminate_queued (queued : Queued s.connection) (isStream : s.connection.streams sid = some stream) :
    Queued (terminateStream s.connection sid stream) := by
  unfold terminateStream
  split_ifs with already
  · exact queued
  · apply queued_insert queued (queue_blocked_frame_perm _ _)
    · intro hasStream
      cases hasStream rfl
    · intro other
      change queuedOf (s.connection.setStream sid { stream with rstSent := true }) other = _
      rw [queued_of_set, if_neg (nofun), Nat.zero_add, ← queued_of_some isStream, update_eq_self]

theorem terminate_same {s : State} {stream : V2Stream} :
    SameScalars s.connection (terminateStream s.connection sid stream) := by
  unfold terminateStream
  split_ifs <;> exact ⟨rfl, rfl, rfl, rfl, rfl⟩

end Terminating

section Frames

variable {s : State}

variable {adjusting : Option Adjusting} {credit : Nat → Nat} {delta : Int}

/-- The SETTINGS frame that is being handled. -/
abbrev Adjusts (c : Connection) (adjusting : Option Adjusting) : Prop :=
  ∀ a, adjusting = some a → a.value ≤ maxWindow ∧
    a.delta = (a.value : Int) - c.initWindow ∧ a.remaining.Nodup

theorem sound_set (sound : Sound s) (isOpen : windowOf s.connection sid ≠ none)
    (windows : windowOf c' = update (windowOf s.connection) sid (some (window, terminated)))
    (same : SameScalars s.connection c') (queued : Queued c')
    (adjusts : Adjusts s.connection adjusting)
    (bases : ∀ other ≠ sid, baseOf s.connection.initWindow adjusting other = base s other)
    (credits : ∀ other ≠ sid, credit other = s.ledger.streamCredit other)
    (here : WindowOk (baseOf s.connection.initWindow adjusting sid) (credit sid) (s.ledger.streamQueued sid)
      window terminated) : Sound ⟨c', adjusting, { s.ledger with streamCredit := credit }⟩ := by
  have balanced := sound.balanced
  have below := open_not_fresh sound.indexed isOpen
  refine ⟨indexed_set sound.indexed isOpen windows same, queued, ?_⟩
  constructor
  · rw [same.initWindow]
    exact balanced.initLimit
  · intro a isAdjusting
    rw [same.initWindow]
    exact adjusts a isAdjusting
  · apply stream_update balanced windows
    · intro other differ
      refine ⟨?_, credits other differ, rfl⟩
      change baseOf c'.initWindow adjusting other = _
      rw [same.initWindow]
      exact bases other differ
    · change WindowOk (baseOf c'.initWindow adjusting sid) _ _ _ _
      rw [same.initWindow]
      exact here
  · intro other above
    rw [same.lastSid] at above
    rcases balanced.untouched other above with ⟨noCredit, noData⟩
    have differ : other ≠ sid := by omega
    refine ⟨?_, noData⟩
    change credit other = 0
    rw [credits other differ]
    exact noCredit
  · rw [same.sendWindow]
    exact balanced.connection
  · rw [same.sendWindow]
    exact balanced.limit
  · exact balanced.frames

theorem sound_terminate (sound : Sound s) (isStream : s.connection.streams sid = some stream)
    (adjusts : Adjusts s.connection adjusting)
    (bases : ∀ other ≠ sid, baseOf s.connection.initWindow adjusting other = base s other)
    (lower : (baseOf s.connection.initWindow adjusting sid : Int) - maxWindow ≤ stream.sendWindow) :
    Sound ⟨terminateStream s.connection sid stream, adjusting, s.ledger⟩ := by
  have isWindow := window_of_some isStream
  apply sound_set sound _ (terminate_windows isStream) terminate_same
    (terminate_queued sound.queued isStream) adjusts bases (fun _ _ => rfl)
  · refine ⟨lower, (sound.balanced.stream _ _ _ isWindow).upper, ?_⟩
    intro impossible
    exact absurd impossible (by decide)
  · rw [isWindow]
    exact some_ne_none _

theorem sound_send_window (sound : Sound s) (window credit queued dropped : Nat)
    (h2c : (window : Int) = defaultWindow + credit - ((queued : Int) - dropped))
    (limit : window ≤ maxWindow) : Sound ⟨{ s.connection with sendWindow := window }, s.adjusting,
      { s.ledger with credit := credit, queued := queued, dropped := dropped }⟩ := by
  have indexed := sound.indexed
  have balanced := sound.balanced
  exact ⟨⟨indexed.placed, indexed.distinct, indexed.listed, indexed.fresh⟩,
    ⟨sound.queued.counted, sound.queued.onlyData⟩,
    ⟨balanced.initLimit, balanced.adjusts, balanced.stream, balanced.untouched, h2c, limit, balanced.frames⟩⟩

theorem set_queued (queued : Queued c) (isStream : c.streams sid = some stream)
    (sameQueued : stream'.queued = stream.queued) : Queued (c.setStream sid stream') := by
  constructor
  · intro other
    rw [queued_of_set, sameQueued, ← queued_of_some isStream, update_eq_self]
    exact queued.counted other
  · exact queued.onlyData

theorem sound_set_stream (sound : Sound s)
    (isStream : s.connection.streams sid = some stream) {stream' : V2Stream}
    (sameQueued : stream'.queued = stream.queued) (adjusts : Adjusts s.connection adjusting)
    (bases : ∀ other ≠ sid, baseOf s.connection.initWindow adjusting other = base s other)
    (credits : ∀ other ≠ sid, credit other = s.ledger.streamCredit other)
    (here : WindowOk (baseOf s.connection.initWindow adjusting sid) (credit sid) (s.ledger.streamQueued sid)
      stream'.sendWindow stream'.rstSent) :
    Sound ⟨s.connection.setStream sid stream', adjusting, { s.ledger with streamCredit := credit }⟩ := by
  apply sound_set sound _ (window_of_set _ _ _) ⟨rfl, rfl, rfl, rfl, rfl⟩
    (set_queued sound.queued isStream sameQueued) adjusts bases credits here
  rw [window_of_some isStream]
  exact some_ne_none _

theorem stream_by_id (found : c.streamById sid = some stream) : c.streams sid = some stream := by
  unfold Connection.streamById at found
  split_ifs at found
  exact found

theorem window_update_cases (isUpdate : stateWindowUpdate c sid field = some (c', accepted)) :
    (sid = 0 ∧ accepted = true ∧ parseWindow field ≤ toSize (maxWindow - c.sendWindow) ∧
      c' = { c with sendWindow := toSize (c.sendWindow + parseWindow field) }) ∨
    (accepted = false ∧ c' = c) ∨
    ∃ stream, sid ≠ 0 ∧ c.streams sid = some stream ∧
      ((accepted = false ∧ c' = terminateStream c sid stream) ∨
        (accepted = true ∧ parseWindow field ≤ toSize (maxWindow - stream.sendWindow) ∧
          c' = c.setStream sid { stream with
            sendWindow := toSsize (stream.sendWindow + parseWindow field)
            exhausted := false })) := by
  unfold stateWindowUpdate at isUpdate
  by_cases isConnection : sid = 0
  · left
    simp only [isConnection, ne_eq, not_true_eq_false, if_false] at isUpdate
    split_ifs at isUpdate with tooMuch
    rcases Prod.mk.inj (Option.some.inj isUpdate) with ⟨isResult, isAccepted⟩
    exact ⟨isConnection, isAccepted.symm, Nat.le_of_not_lt tooMuch, isResult.symm⟩
  · right
    simp only [isConnection, ne_eq, not_false_eq_true, if_true] at isUpdate
    cases isFound : c.streamById sid with
    | none =>
      rw [isFound] at isUpdate
      rcases Prod.mk.inj (Option.some.inj isUpdate) with ⟨isResult, isAccepted⟩
      exact .inl ⟨isAccepted.symm, isResult.symm⟩
    | some stream =>
      right
      rw [isFound] at isUpdate
      refine ⟨stream, isConnection, stream_by_id isFound, ?_⟩
      simp only at isUpdate
      split_ifs at isUpdate with tooMuch
      · rcases Prod.mk.inj (Option.some.inj isUpdate) with ⟨isResult, isAccepted⟩
        exact .inl ⟨isAccepted.symm, isResult.symm⟩
      · rcases Prod.mk.inj (Option.some.inj isUpdate) with ⟨isResult, isAccepted⟩
        exact .inr ⟨isAccepted.symm, Nat.le_of_not_lt tooMuch, isResult.symm⟩

theorem no_adjusts {initWindow : Nat} : ∀ a, (none : Option Adjusting) = some a → a.value ≤ maxWindow ∧
    a.delta = (a.value : Int) - initWindow ∧ a.remaining.Nodup := by
  intro a impossible
  cases impossible

theorem sound_window_update (sound : Sound s)
    (isUpdate : stateWindowUpdate s.connection sid field = some (c', accepted)) :
    Sound ⟨c', s.adjusting, if accepted then s.ledger.accept sid (parseWindow field) else s.ledger⟩ := by
  have isMax : maxWindow = 2 ^ 31 - 1 := rfl
  have balanced := sound.balanced
  have bases : ∀ other, baseOf s.connection.initWindow s.adjusting other = base s other := fun _ => rfl
  rcases window_update_cases isUpdate with
    ⟨rfl, rfl, fits, rfl⟩ | ⟨rfl, rfl⟩ | ⟨stream, notConnection, isStream, rest⟩
  · have limit := balanced.limit
    have h2c := balanced.connection
    have room : ((toSize (maxWindow - s.connection.sendWindow) : Nat) : Int) =
        maxWindow - s.connection.sendWindow := to_size_eq (by omega) (by omega)
    have sum : ((toSize (s.connection.sendWindow + parseWindow field) : Nat) : Int) =
        s.connection.sendWindow + parseWindow field := to_size_eq (by omega) (by omega)
    apply sound_send_window sound _ (s.ledger.credit + parseWindow field) s.ledger.queued s.ledger.dropped
    · omega
    · omega
  · exact sound
  · have ok := balanced.stream _ _ _ (window_of_some isStream)
    have lower := ok.lower
    have upper := ok.upper
    rcases rest with ⟨rfl, rfl⟩ | ⟨rfl, fits, rfl⟩
    · exact sound_terminate sound isStream balanced.adjusts (fun other _ => rfl) lower
    · have room : ((toSize (maxWindow - stream.sendWindow) : Nat) : Int) = maxWindow - stream.sendWindow :=
        to_size_eq (by omega) (by omega)
      have sum : toSsize (stream.sendWindow + parseWindow field) = stream.sendWindow + parseWindow field :=
        to_ssize_eq (by omega) (by omega)
      rw [if_pos rfl, Ledger.accept, if_neg notConnection, sum]
      apply sound_set_stream sound isStream (by rfl) balanced.adjusts (fun other _ => rfl)
      · intro other differ
        exact update_of_ne differ _ _
      · rw [update_self]
        constructor
        · change _ ≤ stream.sendWindow + (parseWindow field : Int)
          rw [bases]
          omega
        · change stream.sendWindow + (parseWindow field : Int) ≤ _
          omega
        · intro notTerminated
          have balance := ok.balance notTerminated
          rw [bases]
          push_cast
          omega

theorem mem_nodes (indexed : Indexed c) (isOpen : windowOf c sid ≠ none) : sid ∈ c.nodes := by
  apply mem_flatMap.mpr
  refine ⟨c.index sid, mem_range.mpr ?_, indexed.listed sid isOpen⟩
  exact Nat.lt_succ_of_le Nat.and_le_right

theorem nodes_nodup (indexed : Indexed c) : c.nodes.Nodup := by
  apply nodup_flatMap.mpr
  refine ⟨fun i _ => indexed.distinct i, nodup_range.imp ?_⟩
  intro i j differ sid inFirst inSecond
  exact differ ((indexed.placed i sid inFirst).symm.trans (indexed.placed j sid inSecond))

theorem sound_initial_window_size (sound : Sound s) (isIdle : s.adjusting = none)
    (fits : value ≤ maxWindow) :
    Sound { s with adjusting := some ⟨toSsize (toSize (value - s.connection.initWindow)), value,
      s.connection.nodes⟩ } := by
  have balanced := sound.balanced
  have initLimit := balanced.initLimit
  have isMax : maxWindow = 2 ^ 31 - 1 := rfl
  have isDelta : toSsize (toSize ((value : Int) - s.connection.initWindow)) =
      (value : Int) - s.connection.initWindow :=
    to_ssize_to_size (by omega) (by omega)
  refine ⟨sound.indexed, sound.queued,
    ⟨initLimit, ?_, ?_, balanced.untouched, balanced.connection, balanced.limit,
    balanced.frames⟩⟩
  · intro a isAdjusting
    have same := Option.some.inj isAdjusting
    subst same
    refine ⟨fits, ?_, nodes_nodup sound.indexed⟩
    dsimp only
    exact isDelta
  · intro sid window terminated isWindow
    have isOpen : windowOf s.connection sid ≠ none := by
      rw [show windowOf s.connection sid = _ from isWindow]
      exact some_ne_none _
    have ok := balanced.stream sid window terminated isWindow
    have sameBase : base s sid = s.connection.initWindow := by
      rw [base, isIdle]
      rfl
    have newBase : baseOf s.connection.initWindow
        (some ⟨toSsize (toSize (value - s.connection.initWindow)), value, s.connection.nodes⟩) sid =
          s.connection.initWindow := if_pos (mem_nodes sound.indexed isOpen)
    change WindowOk (baseOf s.connection.initWindow (some _) sid) _ _ _ _
    rw [newBase, ← sameBase]
    exact ok

theorem sound_adjust_next (sound : Sound s) {remaining : List Nat}
    (isAdjusting : s.adjusting = some ⟨delta, value, sid :: remaining⟩) :
    Sound ⟨adjustWindow s.connection delta sid, some ⟨delta, value, remaining⟩, s.ledger⟩ := by
  have balanced := sound.balanced
  have isMax : maxWindow = 2 ^ 31 - 1 := rfl
  have initLimit := balanced.initLimit
  rcases balanced.adjusts _ isAdjusting with ⟨valueLimit, isDelta, apart⟩
  change value ≤ maxWindow at valueLimit
  change delta = (value : Int) - s.connection.initWindow at isDelta
  rcases nodup_cons.mp apart with ⟨passed, distinct'⟩
  have adjusts : Adjusts s.connection (some ⟨delta, value, remaining⟩) := by
    intro a isSame
    rw [← Option.some.inj isSame]
    exact ⟨valueLimit, isDelta, distinct'⟩
  have bases : ∀ other ≠ sid,
      baseOf s.connection.initWindow (some ⟨delta, value, remaining⟩) other = base s other := by
    intro other differ
    rw [base, isAdjusting]
    simp [baseOf, differ]
  have oldBase : base s sid = s.connection.initWindow := by
    rw [base, isAdjusting]
    exact if_pos (mem_cons_self ..)
  have newBase : baseOf s.connection.initWindow (some ⟨delta, value, remaining⟩) sid = value := if_neg passed
  unfold adjustWindow
  cases isStream : s.connection.streams sid with
  | none =>
    refine ⟨sound.indexed, sound.queued, ⟨initLimit, adjusts, ?_, balanced.untouched, balanced.connection,
      balanced.limit, balanced.frames⟩⟩
    intro other window terminated isWindow
    have differ : other ≠ sid := by
      rintro rfl
      rw [windowOf, isStream] at isWindow
      cases isWindow
    have ok := balanced.stream other window terminated isWindow
    rw [← bases other differ] at ok
    exact ok
  | some stream =>
    have ok := balanced.stream _ _ _ (window_of_some isStream)
    have lower := ok.lower
    have upper := ok.upper
    have limitIs : toSsize (maxWindow - delta) = maxWindow - delta := to_ssize_eq (by omega) (by omega)
    simp only
    split_ifs with tooMuch
    · apply sound_terminate sound isStream adjusts bases
      omega
    · have sum : toSsize (stream.sendWindow + delta) = stream.sendWindow + delta :=
        to_ssize_eq (by omega) (by omega)
      apply sound_set_stream sound isStream (by rfl) adjusts bases (fun _ _ => rfl)
      constructor
      · change _ ≤ toSsize (stream.sendWindow + delta)
        omega
      · change toSsize (stream.sendWindow + delta) ≤ _
        omega
      · intro notTerminated
        have balance := ok.balance notTerminated
        change toSsize (stream.sendWindow + delta) = _
        omega

theorem sound_adjust_done (sound : Sound s) (isAdjusting : s.adjusting = some ⟨delta, value, []⟩) :
    Sound ⟨{ s.connection with initWindow := value }, none, s.ledger⟩ := by
  have indexed := sound.indexed
  have balanced := sound.balanced
  refine ⟨⟨indexed.placed, indexed.distinct, indexed.listed, indexed.fresh⟩,
    ⟨sound.queued.counted, sound.queued.onlyData⟩,
    ⟨(balanced.adjusts _ isAdjusting).1, no_adjusts, ?_, balanced.untouched,
      balanced.connection, balanced.limit,
      balanced.frames⟩⟩
  intro sid window terminated isWindow
  have ok := balanced.stream sid window terminated isWindow
  have oldBase : base s sid = value := by
    rw [base, isAdjusting]
    simp [baseOf]
  rw [oldBase] at ok
  exact ok

end Frames

section Nodes

variable {s : State}

theorem add_node_same : (c.addNode sid).streams = c.streams ∧
    (c.addNode sid).sendWindow = c.sendWindow ∧ (c.addNode sid).initWindow = c.initWindow ∧
    (c.addNode sid).lastSid = c.lastSid ∧ (c.addNode sid).lastOut = c.lastOut ∧
    (c.addNode sid).streamsIndexMask = c.streamsIndexMask := by
  unfold Connection.addNode
  split_ifs <;> exact ⟨rfl, rfl, rfl, rfl, rfl, rfl⟩

theorem add_node_mem {other i : Nat} : other ∈ (c.addNode sid).streamsIndex i ↔
    other ∈ c.streamsIndex i ∨ other = sid ∧ i = c.index sid := by
  unfold Connection.addNode
  split_ifs with present
  · constructor
    · exact .inl
    · rintro (old | ⟨rfl, rfl⟩)
      · exact old
      · exact present
  · change other ∈ update c.streamsIndex (c.index sid) (sid :: c.streamsIndex (c.index sid)) i ↔ _
    by_cases here : i = c.index sid
    · subst here
      rw [update_self, mem_cons, or_comm]
      simp
    · simp [here]

theorem add_node_distinct (indexed : Indexed c) (i : Nat) : ((c.addNode sid).streamsIndex i).Nodup := by
  unfold Connection.addNode
  split_ifs with present
  · exact indexed.distinct i
  · change (update c.streamsIndex (c.index sid) (sid :: c.streamsIndex (c.index sid)) i).Nodup
    by_cases here : i = c.index sid
    · subst here
      rw [update_self, nodup_cons]
      exact ⟨present, indexed.distinct _⟩
    · rw [update_of_ne here]
      exact indexed.distinct i

theorem index_of_mask (mask : c'.streamsIndexMask = c.streamsIndexMask) :
    c'.index sid = c.index sid := by
  rw [Connection.index, Connection.index, mask]

theorem sound_create_stream (sound : Sound s) (isIdle : s.adjusting = none)
    (above : s.connection.lastSid < sid) : Sound { s with connection := createStream s.connection sid } := by
  have indexed := sound.indexed
  have balanced := sound.balanced
  rcases add_node_same with ⟨streams, sendWindow, initWindow, lastSid, lastOut, mask⟩
  have noWindow := indexed.fresh sid above
  have noStream : s.connection.streams sid = none := by
    exact map_eq_none_iff.mp noWindow
  have windows : windowOf (createStream s.connection sid) =
      update (windowOf s.connection) sid (some ((s.connection.initWindow : Int), false)) := by
    have step := window_of_set (s.connection.addNode sid) sid ⟨s.connection.initWindow, 0, false, false⟩
    have same : windowOf (s.connection.addNode sid) = windowOf s.connection := by
      unfold windowOf
      rw [streams]
    rw [same] at step
    exact step
  have counts : queuedOf (createStream s.connection sid) = queuedOf s.connection := by
    have step := queued_of_set (s.connection.addNode sid) sid ⟨s.connection.initWindow, 0, false, false⟩
    have same : queuedOf (s.connection.addNode sid) = queuedOf s.connection := by
      unfold queuedOf
      rw [streams]
    have noFrames : queuedOf s.connection sid = 0 := by rw [queuedOf, noStream]
    have unchanged : update (queuedOf s.connection) sid 0 = queuedOf s.connection := by
      rw [← noFrames, update_eq_self]
    rw [same] at step
    exact step.trans unchanged
  have sameIndex : ∀ other, (createStream s.connection sid).index other = s.connection.index other :=
    fun other => index_of_mask mask
  refine ⟨?_, ?_, ?_⟩
  · constructor
    · intro i other mem
      rw [sameIndex]
      rcases (add_node_mem).mp mem with old | ⟨rfl, rfl⟩
      · exact indexed.placed i other old
      · rfl
    · exact add_node_distinct indexed
    · intro other isOpen
      rw [sameIndex]
      apply (add_node_mem).mpr
      by_cases same : other = sid
      · exact .inr ⟨same, by rw [same]⟩
      · rw [windows, update_of_ne same] at isOpen
        exact .inl (indexed.listed other isOpen)
    · intro other otherAbove
      change sid < other at otherAbove
      rw [windows, update_of_ne (by omega)]
      exact indexed.fresh other (by omega)
  · constructor
    · intro other
      change framesOf other (s.connection.addNode sid).lastOut =
        queuedOf (createStream s.connection sid) other
      rw [counts, lastOut]
      exact sound.queued.counted other
    · change ∀ frame ∈ (s.connection.addNode sid).lastOut, _
      rw [lastOut]
      exact sound.queued.onlyData
  · have initLimit := balanced.initLimit
    constructor
    · change (s.connection.addNode sid).initWindow ≤ maxWindow
      rw [initWindow]
      exact initLimit
    · rw [isIdle]
      exact no_adjusts
    · apply stream_update balanced windows
      · intro other differ
        refine ⟨?_, rfl, rfl⟩
        change baseOf (s.connection.addNode sid).initWindow s.adjusting other = _
        rw [initWindow]
        rfl
      · change WindowOk (baseOf (s.connection.addNode sid).initWindow s.adjusting sid) _ _ _ _
        rcases balanced.untouched sid above with ⟨noCredit, noData⟩
        rw [initWindow, isIdle, noCredit, noData]
        refine ⟨?_, ?_, ?_⟩
        · change (s.connection.initWindow : Int) - maxWindow ≤ s.connection.initWindow
          omega
        · exact Int.ofNat_le.mpr initLimit
        · intro _
          change (s.connection.initWindow : Int) = s.connection.initWindow +
            ((0 : Nat) : Int) - ((0 : Nat) : Int)
          omega
    · intro other otherAbove
      change sid < other at otherAbove
      exact balanced.untouched other (by omega)
    · change ((s.connection.addNode sid).sendWindow : Int) = _
      rw [sendWindow]
      exact balanced.connection
    · change (s.connection.addNode sid).sendWindow ≤ maxWindow
      rw [sendWindow]
      exact balanced.limit
    · exact balanced.frames

theorem sound_index (sound : Sound s) {index : Nat → List Nat}
    (placed : ∀ i sid, sid ∈ index i → s.connection.index sid = i) (apart : ∀ i, (index i).Nodup)
    (listed : ∀ sid, windowOf s.connection sid ≠ none → sid ∈ index (s.connection.index sid)) :
    Sound { s with connection := { s.connection with streamsIndex := index } } := by
  have balanced := sound.balanced
  exact ⟨⟨placed, apart, listed, sound.indexed.fresh⟩, ⟨sound.queued.counted, sound.queued.onlyData⟩,
    ⟨balanced.initLimit, balanced.adjusts, balanced.stream, balanced.untouched,
      balanced.connection, balanced.limit,
      balanced.frames⟩⟩

theorem sound_add_node (sound : Sound s) (sid : Nat) :
    Sound { s with connection := s.connection.addNode sid } := by
  have indexed := sound.indexed
  have asIndex : s.connection.addNode sid =
      { s.connection with streamsIndex := (s.connection.addNode sid).streamsIndex } := by
    unfold Connection.addNode
    split_ifs <;> rfl
  rw [asIndex]
  apply sound_index sound
  · intro i other mem
    rcases (add_node_mem).mp mem with old | ⟨rfl, rfl⟩
    · exact indexed.placed i other old
    · rfl
  · exact add_node_distinct indexed
  · intro other isOpen
    exact (add_node_mem).mpr (.inl (indexed.listed other isOpen))

theorem sound_remove_node (sound : Sound s) (noStream : s.connection.streams sid = none) :
    Sound { s with connection := s.connection.removeNode sid } := by
  have indexed := sound.indexed
  have members : ∀ i other, other ∈ (s.connection.removeNode sid).streamsIndex i →
      other ∈ s.connection.streamsIndex i := by
    intro i other mem
    change other ∈ update s.connection.streamsIndex (s.connection.index sid)
      ((s.connection.streamsIndex (s.connection.index sid)).erase sid) i at mem
    by_cases here : i = s.connection.index sid
    · subst here
      rw [update_self] at mem
      exact mem_of_mem_erase mem
    · rw [update_of_ne here] at mem
      exact mem
  apply sound_index sound
  · intro i other mem
    exact indexed.placed i other (members i other mem)
  · intro i
    by_cases here : i = s.connection.index sid
    · subst here
      rw [update_self]
      exact (indexed.distinct _).erase sid
    · rw [update_of_ne here]
      exact indexed.distinct i
  · intro other isOpen
    have differ : other ≠ sid := by
      rintro rfl
      rw [windowOf, noStream] at isOpen
      exact isOpen rfl
    have listed := indexed.listed other isOpen
    by_cases here : s.connection.index other = s.connection.index sid
    · rw [here, update_self]
      rw [here] at listed
      exact (mem_erase_of_ne differ).mpr listed
    · rw [update_of_ne here]
      exact listed

end Nodes

end ServerCore.NginxHttpV2Windows
