import ServerCore.LighttpdFdeventPoll
import ServerCore.SlotTable

/-!
# What the loop looks up

The descriptors of `pollfds`, the indexes of their owners and the stack of
unused slots are a slot table, and a descriptor with a slot is registered and
not about to be closed. While a result of `poll` is walked, the slots that are
still ahead show what `poll` reported there: no call changes `revents`, and a
slot in use changes its descriptor only when its owner deletes it.
-/

namespace ServerCore.LighttpdFdeventDispatch

open TransitionSystem SlotTable LighttpdFdeventPoll List Option Function

variable {slot new : PollFd} {before : Fdevents} {revents : Nat → BitVec 16} {slots : List PollFd}
  {label : Label}

/-- Slot `k` was reported by the last `poll` and the loop has yet to come to it. -/
def ahead (srv : Server) (k : Nat) : Bool :=
  match srv.phase with
  | .handling fdNdx _ => decide (startNdx fdNdx ≤ k) && (srv.polled[k]?).any reported
  | _ => false

/-- A handler deletes no descriptor whose reported slot is ahead, and a descriptor
is deleted before it is scheduled for closing, and not set, added to or cleared behind it. -/
def careful (srv : Server) : Label → Bool
  | .eventDel fd => (srv.fdeNdx fd).all fun k => !ahead srv k
  | .schedClose fd _ => (srv.fdeNdx fd).isNone
  | .eventSet fd _ _ _ | .eventAdd fd _ _ _ | .eventClr fd _ _ _ =>
    (srv.ev.fdarray fd).all fun node => node.tag = 0
  | _ => true

def carefulLoop : System Server Label where
  initial := mainLoop.initial
  next := fun before label after => careful before label ∧ mainLoop.next before label after

def ownerOf (slot : PollFd) : Option Int :=
  if slot.fd = -1 then none else some slot.fd

structure Tables (srv : Server) : Prop where
  owned : Owned (srv.ev.pollfds.map ownerOf) srv.fdeNdx
  vacant : Vacant (srv.ev.pollfds.map ownerOf) srv.ev.unused
  plain : ∀ fd k, srv.fdeNdx fd = some k → ∃ node, srv.ev.fdarray fd = some node ∧ node.tag = 0
  nodes : ∀ fd node, srv.ev.fdarray fd = some node → 0 ≤ fd ∧ node.fd = fd
  pending : ∀ fd ∈ srv.ev.pendclose, ∃ node, srv.ev.fdarray fd = some node ∧ node.tag ≠ 0

/-- From place `start` on, the slots show what `poll` left there. -/
def Shows (polled pollfds : List PollFd) (start : Nat) : Prop :=
  ∀ j slot, start ≤ j → polled[j]? = some slot →
    ∃ now, pollfds[j]? = some now ∧ now.revents = slot.revents ∧
      (reported slot → now.fd = slot.fd)

def reports (slots : List PollFd) : List (Int × BitVec 32) :=
  (slots.filter reported).map fun slot => (slot.fd, mapRevents slot.revents)

def answers (lookups : List Lookup) : List (Int × BitVec 32) :=
  lookups.map fun lookup => (lookup.fd, lookup.revents)

/-- A pass that has come to place `start` and has `left` events to go. -/
structure Standing (srv : Server) (start left : Nat) : Prop where
  passed : answers srv.lookups = reports (srv.polled.take start)
  left : (srv.polled.drop start).countP reported = left
  shows : Shows srv.polled srv.ev.pollfds start

def Place (srv : Server) : Prop :=
  match srv.phase with
  | .look fdNdx n => 0 < n ∧ Standing srv (startNdx fdNdx) n
  | .handling fdNdx n => Standing srv (startNdx fdNdx) (n - 1)
  | _ => True

structure Sound (srv : Server) : Prop where
  tables : Tables srv
  polledOnce : ((reports srv.polled).map Prod.fst).Nodup
  polledFd : ∀ slot ∈ srv.polled, reported slot → slot.fd ≠ -1
  looked : ∀ lookup ∈ srv.lookups, 0 ≤ lookup.fd ∧ lookup.node.isSome
  answered : answers srv.lookups <+: reports srv.polled
  place : Place srv

theorem sound_dispatched {srv : Server} (sound : Sound srv) : Dispatched srv := by
  constructor
  · exact sound.looked
  · intro lookup mem _
    have answer : (lookup.fd, lookup.revents) ∈ answers srv.lookups := mem_map_of_mem mem
    have report := sound.answered.subset answer
    obtain ⟨slot, slotMem, same⟩ := mem_map.1 report
    obtain ⟨inPolled, isReported⟩ := mem_filter.1 slotMem
    obtain ⟨sameFd, sameRevents⟩ := Prod.mk.inj same
    exact ⟨slot, inPolled, isReported, sameFd, sameRevents⟩
  · have inOrder : ((answers srv.lookups).map Prod.fst).Nodup :=
      (sound.answered.sublist.map Prod.fst).nodup sound.polledOnce
    have fds : (answers srv.lookups).map Prod.fst = srv.lookups.map Lookup.fd := by
      simp [answers, comp_def]
    rw [fds] at inOrder
    exact (filter_sublist.map Lookup.fd).nodup inOrder

theorem sound_init : Sound fdeventInit := by
  constructor
  · constructor
    · intro fd k
      simp [fdeventInit]
    · simp [Vacant, fdeventInit]
    · simp [fdeventInit]
    · simp [fdeventInit]
    · simp [fdeventInit]
  · simp [reports, fdeventInit]
  · simp [fdeventInit]
  · simp [fdeventInit]
  · simp [answers, reports, fdeventInit]
  · trivial

section Calls

variable {srv after : Server} {polled pollfds : List PollFd} {start k : Nat} {fd : Int}
  {node : FdNode} {ev : Fdevents}

theorem shows_set (shows : Shows polled pollfds start)
    (isSlot : pollfds[k]? = some slot) (revents : new.revents = slot.revents)
    (kept : ∀ was, start ≤ k → polled[k]? = some was → reported was → new.fd = slot.fd) :
    Shows polled (pollfds.set k new) start := by
  intro j was from_start isWas
  obtain ⟨now, isNow, sameRevents, sameFd⟩ := shows j was from_start isWas
  rw [getElem?_set]
  by_cases here : k = j
  · subst here
    have bound : k < pollfds.length := (List.getElem?_eq_some_iff.1 isSlot).1
    rw [isSlot] at isNow
    cases isNow
    rw [if_pos rfl, if_pos bound]
    refine ⟨new, rfl, revents.trans sameRevents, ?_⟩
    intro wasReported
    exact (kept was from_start isWas wasReported).trans (sameFd wasReported)
  · rw [if_neg here]
    exact ⟨now, isNow, sameRevents, sameFd⟩

theorem shows_append (shows : Shows polled pollfds start) :
    Shows polled (pollfds ++ [new]) start := by
  intro j was from_start isWas
  obtain ⟨now, isNow, same⟩ := shows j was from_start isWas
  have bound : j < pollfds.length := (List.getElem?_eq_some_iff.1 isNow).1
  rw [getElem?_append_left bound]
  exact ⟨now, isNow, same⟩

theorem owners_set_same (isSlot : pollfds[k]? = some slot)
    (same : new.fd = slot.fd) : (pollfds.set k new).map ownerOf = pollfds.map ownerOf := by
  have sameOwner : ownerOf new = ownerOf slot := by simp only [ownerOf, same]
  obtain ⟨bound, isElem⟩ := List.getElem?_eq_some_iff.1 isSlot
  apply List.ext_getElem?
  intro j
  rw [List.map_set, List.getElem?_set]
  by_cases here : k = j
  · subst here
    simp [bound, sameOwner, isElem]
  · rw [if_neg here]

theorem vacant_unreported (shows : Shows polled pollfds start)
    (polledFd : ∀ slot ∈ polled, reported slot → slot.fd ≠ -1) {was : PollFd}
    (isSlot : pollfds[k]? = some slot) (vacant : slot.fd = -1) (from_start : start ≤ k)
    (isWas : polled[k]? = some was) : ¬ reported was := by
  intro wasReported
  obtain ⟨now, isNow, _, sameFd⟩ := shows k was from_start isWas
  rw [isSlot] at isNow
  cases isNow
  exact polledFd was (mem_of_getElem? isWas) wasReported
    ((sameFd wasReported).symm.trans vacant)

/-- What the backend's calls leave behind for descriptor `fd` with its new index. -/
structure Slotted (srv : Server) (fd : Int) (fdeNdx : Option Nat) (ev : Fdevents) : Prop where
  fdarray : ev.fdarray = srv.ev.fdarray
  pendclose : ev.pendclose = srv.ev.pendclose
  owned : Owned (ev.pollfds.map ownerOf) (update srv.fdeNdx fd fdeNdx)
  vacant : Vacant (ev.pollfds.map ownerOf) ev.unused

variable {fdeNdx : Option Nat} {events : BitVec 32} {junk : BitVec 16}

theorem event_set_cases (set : fdeventPollEventSet before fdeNdx fd events junk = some (ev, k)) :
    (∃ slot, fdeNdx = some k ∧ before.pollfds[k]? = some slot ∧
      ev = { before with
        pollfds := before.pollfds.set k { slot with events := pollEvents events } }) ∨
    (∃ slot rest, fdeNdx = none ∧ before.unused = k :: rest ∧ before.pollfds[k]? = some slot ∧
      ev = { before with
        pollfds := before.pollfds.set k { slot with fd := fd, events := pollEvents events }
        unused := rest }) ∨
    (fdeNdx = none ∧ before.unused = [] ∧ k = before.pollfds.length ∧
      ev = { before with pollfds := before.pollfds ++ [⟨fd, pollEvents events, junk⟩] }) := by
  unfold fdeventPollEventSet at set
  cases fdeNdx with
  | some own =>
    cases isSlot : before.pollfds[own]? with
    | none => simp [isSlot] at set
    | some slot =>
      simp only [isSlot] at set
      split at set
      · cases set
        exact .inl ⟨slot, rfl, isSlot, rfl⟩
      · cases set
  | none =>
    cases stack : before.unused with
    | cons free rest =>
      simp only [stack] at set
      cases isSlot : before.pollfds[free]? with
      | none => simp [isSlot] at set
      | some slot =>
        simp only [isSlot] at set
        cases set
        exact .inr (.inl ⟨slot, rest, rfl, rfl, isSlot, rfl⟩)
    | nil =>
      simp only [stack] at set
      cases set
      refine .inr (.inr ⟨rfl, rfl, rfl, ?_⟩)
      rw [← stack]

theorem event_del_cases (deleted : fdeventPollEventDel before fdeNdx fd = some ev) :
    (fdeNdx = none ∧ ev = before) ∨ (∃ own slot, fdeNdx = some own ∧ before.pollfds[own]? = some slot ∧
      ev = { before with
        pollfds := before.pollfds.set own { slot with fd := -1 }
        unused := own :: before.unused }) := by
  unfold fdeventPollEventDel at deleted
  cases fdeNdx with
  | none =>
    cases deleted
    exact .inl ⟨rfl, rfl⟩
  | some own =>
    cases isSlot : before.pollfds[own]? with
    | none => simp [isSlot] at deleted
    | some slot =>
      simp only [isSlot] at deleted
      split at deleted
      · cases deleted
        exact .inr ⟨own, slot, rfl, isSlot, rfl⟩
      · cases deleted

theorem event_set_slotted (tables : Tables srv) (isFd : fd ≠ -1)
    (set : fdeventPollEventSet srv.ev (srv.fdeNdx fd) fd events junk = some (ev, k)) :
    Slotted srv fd (some k) ev := by
  have owner : ∀ events revents, ownerOf ⟨fd, events, revents⟩ = some fd := by
    simp [ownerOf, isFd]
  rcases event_set_cases set with ⟨slot, known, isSlot, rfl⟩ |
      ⟨slot, rest, known, stack, isSlot, rfl⟩ | ⟨known, stack, rfl, rfl⟩
  · have same : (srv.ev.pollfds.set k { slot with events := pollEvents events }).map ownerOf =
        srv.ev.pollfds.map ownerOf := owners_set_same isSlot rfl
    constructor
    · rfl
    · rfl
    · rw [same, update_eq_self_iff.2 known.symm]
      exact tables.owned
    · rw [same]
      exact tables.vacant
  · have vacant := tables.vacant
    rw [stack] at vacant
    constructor
    · rfl
    · rfl
    · rw [map_set, owner]
      exact owned_take tables.owned known ((vacant.2 k).1 mem_cons_self)
    · rw [map_set, owner]
      exact vacant_take vacant
  · have vacant := tables.vacant
    rw [stack] at vacant
    constructor
    · rfl
    · rfl
    · rw [map_append, map_singleton, owner, ← length_map ownerOf]
      exact owned_append tables.owned known
    · simp only [map_append, map_singleton, owner, stack]
      exact vacant_append vacant

theorem event_set_shows (tables : Tables srv)
    (polledFd : ∀ slot ∈ polled, reported slot → slot.fd ≠ -1) (shows : Shows polled srv.ev.pollfds start)
    (set : fdeventPollEventSet srv.ev (srv.fdeNdx fd) fd events junk = some (ev, k)) :
    Shows polled ev.pollfds start := by
  rcases event_set_cases set with ⟨slot, known, isSlot, rfl⟩ |
      ⟨slot, rest, known, stack, isSlot, rfl⟩ | ⟨known, stack, rfl, rfl⟩
  · refine shows_set shows isSlot ?_ ?_
    · rfl
    · intro was _ _ _
      rfl
  · have isFree : (srv.ev.pollfds.map ownerOf)[k]? = some none := by
      rw [← tables.vacant.2, stack]
      exact mem_cons_self
    have vacant : slot.fd = -1 := by
      rw [getElem?_map, isSlot] at isFree
      simpa [ownerOf] using isFree
    refine shows_set shows isSlot ?_ ?_
    · rfl
    · intro was from_start isWas wasReported
      exact absurd wasReported (vacant_unreported shows polledFd isSlot vacant from_start isWas)
  · exact shows_append shows

theorem event_del_slotted (tables : Tables srv)
    (deleted : fdeventPollEventDel srv.ev (srv.fdeNdx fd) fd = some ev) : Slotted srv fd none ev := by
  rcases event_del_cases deleted with ⟨known, rfl⟩ | ⟨own, slot, known, isSlot, rfl⟩
  · constructor
    · rfl
    · rfl
    · rw [update_eq_self_iff.2 known.symm]
      exact tables.owned
    · exact tables.vacant
  · have owner : ownerOf { slot with fd := -1 } = none := rfl
    constructor
    · rfl
    · rfl
    · rw [map_set, owner]
      exact owned_release tables.owned known
    · rw [map_set, owner]
      exact vacant_release tables.vacant ((tables.owned fd own).1 known)

theorem event_del_shows (shows : Shows polled srv.ev.pollfds start)
    (behind : ∀ own was, srv.fdeNdx fd = some own → start ≤ own → polled[own]? = some was → ¬ reported was)
    (deleted : fdeventPollEventDel srv.ev (srv.fdeNdx fd) fd = some ev) : Shows polled ev.pollfds start := by
  rcases event_del_cases deleted with ⟨_, rfl⟩ | ⟨own, slot, known, isSlot, rfl⟩
  · exact shows
  · refine shows_set shows isSlot ?_ ?_
    · rfl
    · intro was from_start isWas wasReported
      exact absurd wasReported (behind own was known from_start isWas)

theorem tables_slotted (tables : Tables srv) (found : srv.ev.fdarray fd = some node)
    (untagged : node.tag = 0) (slotted : Slotted srv fd fdeNdx ev)
    {events : BitVec 32} : Tables (srv.setNdx (ev.setNode fd (some { node with events })) fd fdeNdx) := by
  have others : ∀ other, other ≠ fd →
      (ev.setNode fd (some { node with events })).fdarray other = srv.ev.fdarray other := by
    intro other isOther
    rw [set_node_of_ne ev _ isOther, slotted.fdarray]
  constructor
  · exact slotted.owned
  · exact slotted.vacant
  · intro other k own
    by_cases isFd : other = fd
    · subst isFd
      exact ⟨{ node with events }, set_node_self ev other _, untagged⟩
    · rw [set_ndx_of_ne srv _ _ isFd] at own
      obtain ⟨its, isIts, itsTag⟩ := tables.plain other k own
      exact ⟨its, (others other isFd).trans isIts, itsTag⟩
  · intro other its isIts
    by_cases isFd : other = fd
    · subst isFd
      have isNode := (set_node_self ev other (some { node with events })).symm.trans isIts
      cases isNode
      exact tables.nodes other node found
    · exact tables.nodes other its ((others other isFd).symm.trans isIts)
  · intro other waits
    have wasPending : other ∈ srv.ev.pendclose := by
      rw [← slotted.pendclose]
      exact waits
    obtain ⟨its, isIts, itsTag⟩ := tables.pending other wasPending
    have isOther : other ≠ fd := by
      rintro rfl
      rw [found] at isIts
      cases isIts
      exact itsTag untagged
    exact ⟨its, (others other isOther).trans isIts, itsTag⟩

theorem sound_call (sound : Sound srv) (running : srv.phase.running)
    (phase : after.phase = srv.phase) (samePolled : after.polled = srv.polled)
    (lookups : after.lookups = srv.lookups) (tables : Tables after)
    (shows : ∀ fdNdx n, srv.phase = .handling fdNdx n → Shows srv.polled srv.ev.pollfds (startNdx fdNdx) →
      Shows srv.polled after.ev.pollfds (startNdx fdNdx)) : Sound after := by
  constructor
  · exact tables
  · rw [samePolled]
    exact sound.polledOnce
  · rw [samePolled]
    exact sound.polledFd
  · rw [lookups]
    exact sound.looked
  · rw [lookups, samePolled]
    exact sound.answered
  · have place := sound.place
    unfold Place at place ⊢
    rw [phase]
    cases isPhase : srv.phase with
    | idle => trivial
    | look fdNdx n => simp [isPhase, Phase.running] at running
    | handling fdNdx n =>
      simp only [isPhase] at place
      constructor
      · rw [lookups, samePolled]
        exact place.passed
      · rw [samePolled]
        exact place.left
      · rw [samePolled]
        exact shows fdNdx n isPhase place.shows
    | closing => trivial
    | failed => trivial

section

variable (sound : Sound srv) (running : srv.phase.running)
include sound running

theorem change_events_sound {change : BitVec 32 → Option (BitVec 32)} {stray : BitVec 32}
    (open_ : (srv.ev.fdarray fd).all fun node => node.tag = 0)
    (moved : changeEvents srv fd junk stray change = some after) : Sound after := by
  unfold changeEvents at moved
  split at moved
  · cases moved
    exact sound
  next isFd =>
    cases isNode : srv.ev.fdarray fd with
    | none => simp [isNode] at moved
    | some node =>
      have untagged : node.tag = 0 := by simpa [isNode] using open_
      have plain : ∀ events, node.writeEvents events = { node with events } := by
        simp [FdNode.writeEvents, untagged]
      simp only [isNode] at moved
      cases changed : change (node.readEvents stray) with
      | none =>
        simp only [changed] at moved
        cases moved
        exact sound
      | some events =>
        simp only [changed] at moved
        cases set : fdeventPollEventSet srv.ev (srv.fdeNdx fd) fd events junk with
        | none => simp [set] at moved
        | some result =>
          simp only [set, plain] at moved
          cases moved
          apply sound_call sound running
          · rfl
          · rfl
          · rfl
          · exact tables_slotted sound.tables isNode untagged
              (event_set_slotted sound.tables isFd set)
          · intro fdNdx n _ shows
            have ahead := event_set_shows sound.tables sound.polledFd shows set
            exact ahead

theorem event_del_sound (isCareful : careful srv (.eventDel fd))
    (moved : fdeventEventDel srv fd = some after) :
    Sound after := by
  unfold fdeventEventDel at moved
  split at moved
  · cases moved
    exact sound
  cases found : srv.ev.fdarray fd with
  | none => simp [found] at moved
  | some node =>
    simp only [found] at moved
    split at moved
    · cases moved
      exact sound
    next untagged =>
      cases deleted : fdeventPollEventDel srv.ev (srv.fdeNdx fd) fd with
      | none => simp [deleted] at moved
      | some ev =>
        simp only [deleted] at moved
        cases moved
        apply sound_call sound running
        · rfl
        · rfl
        · rfl
        · exact tables_slotted sound.tables found (by omega)
            (event_del_slotted sound.tables deleted)
        · intro fdNdx n isPhase shows
          apply event_del_shows shows _ deleted
          intro own was known from_start isWas wasReported
          simp [careful, known, ahead, isPhase, from_start, isWas, wasReported] at isCareful

theorem register_sound (isFd : 0 ≤ fd) (unregistered : srv.ev.fdarray fd = none) {handler : Nat} :
    Sound (srv.setNdx (fdeventRegister srv.ev fd handler) fd none) := by
  have tables := sound.tables
  have unowned : srv.fdeNdx fd = none := by
    cases own : srv.fdeNdx fd with
    | none => rfl
    | some k =>
      obtain ⟨node, isNode, _⟩ := tables.plain fd k own
      rw [unregistered] at isNode
      cases isNode
  have others : ∀ other, other ≠ fd →
      (fdeventRegister srv.ev fd handler).fdarray other = srv.ev.fdarray other := by
    intro other isOther
    exact set_node_of_ne srv.ev _ isOther
  have sameNdx : update srv.fdeNdx fd none = srv.fdeNdx := update_eq_self_iff.2 unowned.symm
  apply sound_call sound running
  · rfl
  · rfl
  · rfl
  · constructor
    · rw [Server.setNdx, sameNdx]
      exact tables.owned
    · exact tables.vacant
    · intro other k own
      simp only [Server.setNdx, sameNdx] at own
      obtain ⟨node, isNode, untagged⟩ := tables.plain other k own
      have isOther : other ≠ fd := by
        rintro rfl
        rw [unowned] at own
        cases own
      exact ⟨node, (others other isOther).trans isNode, untagged⟩
    · intro other its isIts
      by_cases isOther : other = fd
      · subst isOther
        have isNew := (set_node_self srv.ev other _).symm.trans isIts
        cases isNew
        exact ⟨isFd, rfl⟩
      · exact tables.nodes other its ((others other isOther).symm.trans isIts)
    · intro other waits
      obtain ⟨its, isIts, itsTag⟩ := tables.pending other waits
      have isOther : other ≠ fd := by
        rintro rfl
        rw [unregistered] at isIts
        cases isIts
      exact ⟨its, (others other isOther).trans isIts, itsTag⟩
  · intro fdNdx n _ shows
    exact shows

theorem sched_close_sound (unowned : srv.fdeNdx fd = none) {issock : Bool}
    (closed : fdeventSchedClose srv.ev fd issock = some ev) : Sound { srv with ev } := by
  have tables := sound.tables
  unfold fdeventSchedClose at closed
  cases found : srv.ev.fdarray fd with
  | none => simp [found] at closed
  | some node =>
    simp only [found] at closed
    split at closed
    · cases closed
      exact sound
    · cases closed
      have others : ∀ (tagged : FdNode) other, other ≠ fd →
          (srv.ev.setNode fd (some tagged)).fdarray other = srv.ev.fdarray other := by
        intro tagged other isOther
        exact set_node_of_ne srv.ev _ isOther
      have tagSet : (if issock then 1 else 2) ≠ 0 := by
        cases issock <;> decide
      apply sound_call sound running
      · rfl
      · rfl
      · rfl
      · constructor
        · exact tables.owned
        · exact tables.vacant
        · intro other k own
          have isOther : other ≠ fd := by
            rintro rfl
            rw [unowned] at own
            cases own
          obtain ⟨its, isIts, untagged⟩ := tables.plain other k own
          exact ⟨its, (others _ other isOther).trans isIts, untagged⟩
        · intro other its isIts
          by_cases isOther : other = fd
          · subst isOther
            have isNew := (set_node_self srv.ev other _).symm.trans isIts
            cases isNew
            exact tables.nodes other node found
          · exact tables.nodes other its ((others _ other isOther).symm.trans isIts)
        · intro other waits
          by_cases isOther : other = fd
          · subst isOther
            exact ⟨_, set_node_self srv.ev other _, tagSet⟩
          · have waited : other ∈ srv.ev.pendclose := (mem_cons.1 waits).resolve_left isOther
            obtain ⟨its, isIts, itsTag⟩ := tables.pending other waited
            exact ⟨its, (others _ other isOther).trans isIts, itsTag⟩
      · intro fdNdx n _ shows
        exact shows

end

end Calls

section Loop

variable {srv after : Server} {polled pollfds : List PollFd} {start k : Nat} {slot : PollFd}

theorem sched_run_sound (sound : Sound srv) :
    Sound { srv with ev := fdeventSchedRun srv.ev, phase := .idle } := by
  have tables := sound.tables
  constructor
  · constructor
    · exact tables.owned
    · exact tables.vacant
    · intro fd k own
      obtain ⟨node, isNode, untagged⟩ := tables.plain fd k own
      have stays : fd ∉ srv.ev.pendclose := by
        intro waits
        obtain ⟨its, isIts, itsTag⟩ := tables.pending fd waits
        rw [isNode] at isIts
        cases isIts
        exact itsTag untagged
      exact ⟨node, (if_neg stays).trans isNode, untagged⟩
    · intro fd node isNode
      simp only [fdeventSchedRun] at isNode
      split at isNode
      · cases isNode
      · exact tables.nodes fd node isNode
    · intro fd waits
      cases waits
  · exact sound.polledOnce
  · exact sound.polledFd
  · exact sound.looked
  · exact sound.answered
  · trivial

theorem poll_owners (revents : Nat → BitVec 16) (pollfds : List PollFd) :
    (pollResult revents pollfds).map ownerOf = pollfds.map ownerOf := by
  apply ext_getElem?
  intro j
  rw [List.getElem?_map, pollResult, List.getElem?_mapIdx, Option.map_map, List.getElem?_map]
  rfl

theorem poll_reports_fd
    (mem : slot ∈ pollResult revents pollfds) (isReported : reported slot) : slot.fd ≠ -1 := by
  obtain ⟨j, bound, isSlot⟩ := mem_mapIdx.1 mem
  intro isFree
  subst isSlot
  simp only at isFree
  simp [reported, isFree] at isReported

theorem reports_once {index : Int → Option Nat} (owned : Owned (polled.map ownerOf) index)
    (polledFd : ∀ slot ∈ polled, reported slot → slot.fd ≠ -1) : ((reports polled).map Prod.fst).Nodup := by
  have once := owned_nodup owned
  rw [filterMap_map] at once
  have owners : (reports polled).map Prod.fst =
      (polled.filter reported).filterMap (id ∘ ownerOf) := by
    rw [reports, List.map_map, ← List.filterMap_eq_map]
    apply filterMap_congr
    intro slot mem
    obtain ⟨inPolled, isReported⟩ := mem_filter.1 mem
    simp [ownerOf, polledFd slot inPolled isReported]
  rw [owners]
  exact (filter_sublist.filterMap _).nodup once

theorem poll_sound (sound : Sound srv) : Sound (fdeventPoll srv revents) := by
  have tables := sound.tables
  have polledFd : ∀ slot ∈ pollResult revents srv.ev.pollfds, reported slot → slot.fd ≠ -1 :=
    fun slot mem isReported => poll_reports_fd mem isReported
  have owned : Owned ((pollResult revents srv.ev.pollfds).map ownerOf) srv.fdeNdx := by
    rw [poll_owners]
    exact tables.owned
  constructor
  · constructor
    · exact owned
    · simp only [fdeventPoll, poll_owners]
      exact tables.vacant
    · exact tables.plain
    · exact tables.nodes
    · exact tables.pending
  · exact reports_once owned polledFd
  · exact polledFd
  · intro lookup mem
    cases mem
  · exact nil_prefix
  · by_cases some_left : 0 < (pollResult revents srv.ev.pollfds).countP reported
    · have phase : (fdeventPoll srv revents).phase =
          .look none ((pollResult revents srv.ev.pollfds).countP reported) := if_pos some_left
      simp only [Place, phase]
      refine ⟨some_left, ?_⟩
      constructor
      · rfl
      · rfl
      · intro j slot _ isSlot
        exact ⟨slot, isSlot, rfl, fun _ => rfl⟩
    · have phase : (fdeventPoll srv revents).phase = .closing := if_neg some_left
      simp only [Place, phase]

variable {behind : List PollFd} {fdNdx : Option Nat} {n : Nat}

theorem next_shown (shows : Shows polled pollfds start) {before : List PollFd}
    (parts : polled.drop start = before ++ slot :: behind)
    (unreported : ∀ other ∈ before, !reported other) (isReported : reported slot) :
    (pollfds.drop start).findIdx? reported = some before.length ∧
      ∃ now, pollfds[start + before.length]? = some now ∧ now.revents = slot.revents ∧ now.fd = slot.fd := by
  have isSlot : polled[start + before.length]? = some slot := by
    rw [← getElem?_drop, parts]
    simp
  obtain ⟨now, isNow, sameRevents, sameFd⟩ :=
    shows (start + before.length) slot (Nat.le_add_right _ _) isSlot
  have bound : before.length < (pollfds.drop start).length := by
    have := (List.getElem?_eq_some_iff.1 isNow).1
    rw [length_drop]
    omega
  refine ⟨?_, now, isNow, sameRevents, sameFd isReported⟩
  rw [findIdx?_eq_some_iff_getElem]
  refine ⟨bound, ?_, ?_⟩
  · have isElem : (pollfds.drop start)[before.length] = now := by
      apply Option.some.inj
      rw [← getElem?_eq_getElem bound, getElem?_drop, isNow]
    rw [isElem, reported, sameRevents]
    exact isReported
  · intro j below
    have isOther : polled[start + j]? = some before[j] := by
      rw [← getElem?_drop, parts, getElem?_append_left below]
      exact getElem?_eq_getElem below
    obtain ⟨its, isIts, itsRevents, _⟩ := shows (start + j) before[j] (Nat.le_add_right _ _) isOther
    have isElem : (pollfds.drop start)[j] = its := by
      apply Option.some.inj
      rw [← getElem?_eq_getElem, getElem?_drop, isIts]
    have quiet := unreported before[j] (getElem_mem below)
    rw [isElem, reported, itsRevents]
    simpa [reported] using quiet

theorem reports_append (first second : List PollFd) :
    reports (first ++ second) = reports first ++ reports second := by
  simp [reports]

theorem reports_quiet (unreported : ∀ slot ∈ slots, !reported slot) :
    reports slots = [] := by
  have quiet : slots.filter reported = [] := by
    rw [filter_eq_nil_iff]
    intro slot mem
    simpa using unreported slot mem
  rw [reports, quiet, map_nil]

theorem parts_after {before : List PollFd} (parts : polled.drop start = before ++ slot :: behind)
    (unreported : ∀ other ∈ before, !reported other) (isReported : reported slot) :
    reports (polled.take (start + before.length + 1)) =
        reports (polled.take start) ++ [(slot.fd, mapRevents slot.revents)] ∧
      (polled.drop start).countP reported =
        (polled.drop (start + before.length + 1)).countP reported + 1 := by
  constructor
  · have front : (before ++ slot :: behind).take (before.length + 1) = before ++ [slot] := by
      simp [take_append]
    rw [Nat.add_assoc, take_add, parts, front, reports_append, reports_append,
      reports_quiet unreported]
    simp [reports, isReported]
  · rw [Nat.add_assoc, ← drop_drop, parts, countP_append, countP_cons_of_pos isReported]
    have quiet : before.countP reported = 0 := by
      rw [countP_eq_zero]
      intro other mem
      simpa using unreported other mem
    rw [quiet]
    simp

theorem reported_parts (some_left : 0 < slots.countP reported) :
    ∃ before slot behind, slots = before ++ slot :: behind ∧
      (∀ other ∈ before, !reported other) ∧ reported slot := by
  obtain ⟨slot, mem, isReported⟩ := countP_pos_iff.1 some_left
  have found : (slots.find? reported).isSome := find?_isSome.2 ⟨slot, mem, isReported⟩
  obtain ⟨first, isFirst⟩ := isSome_iff_exists.1 found
  obtain ⟨firstReported, before, behind, parts, unreported⟩ := find?_eq_some_iff_append.1 isFirst
  exact ⟨before, first, behind, parts, unreported, firstReported⟩

/-- The body of the loop comes to the next slot that `poll` reported and finds the
descriptor there as it was reported, registered and with its handler. -/
theorem turn_finds (tables : Tables srv) (polledFd : ∀ slot ∈ srv.polled, reported slot → slot.fd ≠ -1)
    (some_left : 0 < n) (standing : Standing srv (startNdx fdNdx) n)
    (moved : turn srv fdNdx n = some after) :
    ∃ (k : Nat) (slot : PollFd) (node : FdNode), srv.ev.fdarray slot.fd = some node ∧ 0 ≤ slot.fd ∧
      reports (srv.polled.take (k + 1)) =
        reports (srv.polled.take (startNdx fdNdx)) ++ [(slot.fd, mapRevents slot.revents)] ∧
      (srv.polled.drop (k + 1)).countP reported = n - 1 ∧ startNdx fdNdx ≤ k ∧
      after = { srv with
        phase := .handling (some k) n
        lookups := srv.lookups ++
          [⟨slot.fd, mapRevents slot.revents, srv.ev.fdarray slot.fd, some node.handler⟩] } := by
  have counted := standing.left
  obtain ⟨before, slot, behind, parts, unreported, isReported⟩ :=
    reported_parts (by omega : 0 < (srv.polled.drop (startNdx fdNdx)).countP reported)
  obtain ⟨found, now, isNow, sameRevents, sameFd⟩ :=
    next_shown standing.shows parts unreported isReported
  obtain ⟨front, count⟩ := parts_after parts unreported isReported
  have isFd : slot.fd ≠ -1 := by
    apply polledFd slot _ isReported
    apply mem_of_mem_drop
    rw [parts]
    simp
  have owns : srv.fdeNdx slot.fd = some (startNdx fdNdx + before.length) := by
    rw [tables.owned, getElem?_map, isNow]
    simp [ownerOf, sameFd, isFd]
  obtain ⟨node, isNode, untagged⟩ := tables.plain _ _ owns
  obtain ⟨notNegative, nodeFd⟩ := tables.nodes _ _ isNode
  refine ⟨startNdx fdNdx + before.length, slot, node, isNode, notNegative, front, by omega,
    Nat.le_add_right _ _, ?_⟩
  have nextNdx : fdeventPollEventNextFdndx srv.ev fdNdx = some (startNdx fdNdx + before.length) := by
    rw [fdeventPollEventNextFdndx, found, map_some]
  have handler : fdeventGetHandler srv.ev slot.fd = some (some node.handler) := by
    simp [fdeventGetHandler, isNode, untagged, nodeFd]
  have getFd : fdeventPollEventGetFd srv.ev (startNdx fdNdx + before.length) = some slot.fd := by
    rw [fdeventPollEventGetFd, isNow, map_some, sameFd]
  unfold turn at moved
  simp only [nextNdx, getFd] at moved
  cases revent : fdeventPollEventGetRevent srv.ev (startNdx fdNdx + before.length) with
  | none => simp [revent] at moved
  | some revents =>
    have mapped : revents = mapRevents slot.revents := by
      simp only [fdeventPollEventGetRevent, isNow] at revent
      split at revent
      · cases revent
      · cases revent
        rw [sameRevents]
    simp only [revent, handler] at moved
    cases moved
    rw [mapped]

theorem turn_sound (sound : Sound srv)
    (phase : srv.phase = .look fdNdx n) (moved : turn srv fdNdx n = some after) : Sound after := by
  have place := sound.place
  simp only [Place, phase] at place
  obtain ⟨some_left, standing⟩ := place
  obtain ⟨k, slot, node, isNode, notNegative, front, count, from_start, rfl⟩ :=
    turn_finds sound.tables sound.polledFd some_left standing moved
  have passed : answers (srv.lookups ++
      [⟨slot.fd, mapRevents slot.revents, srv.ev.fdarray slot.fd, some node.handler⟩]) =
        reports (srv.polled.take (k + 1)) := by
    rw [front, ← standing.passed]
    simp [answers]
  constructor
  · exact ⟨sound.tables.owned, sound.tables.vacant, sound.tables.plain, sound.tables.nodes,
      sound.tables.pending⟩
  · exact sound.polledOnce
  · exact sound.polledFd
  · intro lookup mem
    rcases mem_append.1 mem with old | new
    · exact sound.looked lookup old
    · cases mem_singleton.1 new
      rw [isNode]
      exact ⟨notNegative, rfl⟩
  · rw [passed]
    nth_rewrite 2 [← take_append_drop (k + 1) srv.polled]
    rw [reports_append]
    exact prefix_append _ _
  · constructor
    · exact passed
    · exact count
    · intro j was from_next isWas
      exact standing.shows j was (Nat.le_trans from_start (Nat.le_of_succ_le from_next)) isWas

theorem returned_sound (sound : Sound srv)
    (phase : srv.phase = .handling fdNdx n) : Sound { srv with phase := againPhase fdNdx n } := by
  have place := sound.place
  simp only [Place, phase] at place
  constructor
  · exact ⟨sound.tables.owned, sound.tables.vacant, sound.tables.plain, sound.tables.nodes,
      sound.tables.pending⟩
  · exact sound.polledOnce
  · exact sound.polledFd
  · exact sound.looked
  · exact sound.answered
  · by_cases again : 1 < n
    · simp only [Place, againPhase, if_pos again]
      exact ⟨by omega, place.passed, place.left, place.shows⟩
    · simp only [Place, againPhase, if_neg again]

theorem step_sound (sound : Sound srv) (isCareful : careful srv label)
    (moved : step srv label = some after) : Sound after := by
  cases label with
  | register fd handler =>
    simp only [step] at moved
    split at moved
    next allowed =>
      cases moved
      exact register_sound sound allowed.1 allowed.2.1 allowed.2.2
    next => cases moved
  | eventSet fd events junk stray | eventAdd fd event junk stray | eventClr fd event junk stray =>
    simp only [step] at moved
    split at moved
    next running => exact change_events_sound sound running isCareful moved
    next => cases moved
  | eventDel fd =>
    simp only [step] at moved
    split at moved
    next running => exact event_del_sound sound running isCareful moved
    next => cases moved
  | schedClose fd issock =>
    simp only [step] at moved
    split at moved
    next running =>
      obtain ⟨ev, closed, rfl⟩ := map_eq_some_iff.1 moved
      exact sched_close_sound sound running (isNone_iff_eq_none.1 isCareful) closed
    next => cases moved
  | poll revents =>
    simp only [step] at moved
    split at moved
    · cases moved
      exact poll_sound sound
    · cases moved
  | turn =>
    simp only [step] at moved
    split at moved
    next phase => exact turn_sound sound phase moved
    next => cases moved
  | returned =>
    simp only [step] at moved
    split at moved
    next phase =>
      cases moved
      exact returned_sound sound phase
    next => cases moved
  | schedRun =>
    simp only [step] at moved
    split at moved
    · cases moved
      exact sched_run_sound sound
    · cases moved

end Loop

/-- In every state of a run whose calls are careful, the look-ups of the pass find
registered descriptors, and each handler was called for a descriptor this `poll`
reported, with the reported events, and once. -/
theorem careful_dispatch {srv : Server} (reached : Reachable carefulLoop srv) : Dispatched srv := by
  apply sound_dispatched
  apply reachable_invariant _ _ reached
  · intro start isInit
    cases isInit
    exact sound_init
  · intro before label after sound moved
    exact step_sound sound moved.1 moved.2

def carefulStep (srv : Server) (label : Label) : Option Server :=
  if careful srv label then step srv label else none

theorem careful_step_next {before after : Server}
    (moved : carefulStep before label = some after) : carefulLoop.next before label after := by
  unfold carefulStep at moved
  split at moved
  next isCareful => exact ⟨isCareful, moved⟩
  next => cases moved

def twoReported : List Label :=
  [.register 5 50, .register 6 60, .eventSet 5 fdeventIn 0 0, .eventSet 6 fdeventIn 0 0,
    .poll fun _ => pollIn, .turn]

/-- The handler of the first closes its own descriptor and opens another one. -/
def closesItself : List Label :=
  twoReported ++ [.eventDel 5, .schedClose 5 true, .register 7 70, .eventSet 7 fdeventIn 0 0,
    .returned, .turn, .returned, .schedRun]

/-- The handler of the first deletes the second, as when a request ends together
with its backend's descriptor. -/
def deletesOther : List Label :=
  twoReported ++ [.eventDel 6, .returned, .turn]

theorem both_dispatched : ∃ srv, Reachable carefulLoop srv ∧
    srv.lookups.map Lookup.fd = [5, 6] ∧ Dispatched srv := by
  have ran : (closesItself.foldlM carefulStep fdeventInit).map
      (fun srv => srv.lookups.map Lookup.fd) = some [5, 6] := by
    decide
  obtain ⟨srv, reaches, fds⟩ := map_eq_some_iff.1 ran
  have reached : Reachable carefulLoop srv :=
    reachable_foldlM (fun _ _ _ moved => careful_step_next moved) _ (reachable_initial rfl) reaches
  exact ⟨srv, reached, fds, careful_dispatch reached⟩

/-- The loop looks up descriptor `-1`. -/
theorem deleted_slot_looked_up : ¬ ∀ srv, Reachable mainLoop srv → Dispatched srv := by
  intro always
  have ran : (deletesOther.foldlM step fdeventInit).map
      (fun srv => srv.lookups.map Lookup.fd) = some [5, -1] := by
    decide
  obtain ⟨srv, reaches, fds⟩ := map_eq_some_iff.1 ran
  have reached : Reachable mainLoop srv :=
    reachable_foldlM (fun _ _ _ moved => moved) _ (reachable_initial rfl) reaches
  have last : (-1 : Int) ∈ srv.lookups.map Lookup.fd := by
    rw [fds]
    decide
  obtain ⟨lookup, mem, isLast⟩ := mem_map.1 last
  have notNegative := ((always srv reached).registered lookup mem).1
  omega

end ServerCore.LighttpdFdeventDispatch
