import Mathlib.Data.BitVec
import ServerCore.TransitionSystem

/-!
# The poll backend and the dispatch of its events

The model follows `fdevent.c`, `fdevent_poll.c` and the pass over the result of
`poll` in `server_main`. Every descriptor comes with the index its owner
keeps in `fde_ndx`; the index `-1` is `none` here. A slot that was appended to
`pollfds` has whatever `revents` the allocated memory held, so the calls that
may append one take that value.

A call that reads through a null pointer, that reaches one of the `SEGFAULT()`
lines or that the phase of the loop excludes has no result. The
look-ups of the loop are kept with what they found, also the last one of a
server that does not survive it.
-/

namespace ServerCore.LighttpdFdeventPoll

open TransitionSystem Function

def fdeventIn : BitVec 32 := 1
def fdeventPri : BitVec 32 := 2
def fdeventOut : BitVec 32 := 4
def fdeventErr : BitVec 32 := 8
def fdeventHup : BitVec 32 := 16
def fdeventNval : BitVec 32 := 32

def pollIn : BitVec 16 := 1
def pollPri : BitVec 16 := 2
def pollOut : BitVec 16 := 4
def pollErr : BitVec 16 := 8
def pollHup : BitVec 16 := 16
def pollNval : BitVec 16 := 32

/-- A node of `fdarray`; `tag` is the two low bits of the pointer to it. -/
structure FdNode where
  fd : Int
  handler : Nat
  events : BitVec 32
  tag : Nat

structure PollFd where
  fd : Int
  events : BitVec 16
  revents : BitVec 16

/-- `fdarray` has no element below 0: such an index finds nothing in the model. -/
structure Fdevents where
  fdarray : Int → Option FdNode
  pollfds : List PollFd
  unused : List Nat
  pendclose : List Int

section

variable (ev : Fdevents)
include ev

def Fdevents.setNode (fd : Int) (node : Option FdNode) : Fdevents :=
  { ev with fdarray := update ev.fdarray fd node }

@[simp] theorem set_node_self (fd : Int) (node : Option FdNode) :
    (ev.setNode fd node).fdarray fd = node := by
  simp [Fdevents.setNode]

theorem set_node_of_ne {fd other : Int} (node : Option FdNode)
    (isOther : other ≠ fd) : (ev.setNode fd node).fdarray other = ev.fdarray other := by
  simp [Fdevents.setNode, isOther]

def fdeventRegister (fd : Int) (handler : Nat) : Fdevents :=
  ev.setNode fd (some { fd, handler, events := 0, tag := 0 })

/-- The pointer keeps an earlier tag, and a second call does nothing. -/
def fdeventSchedClose (fd : Int) (issock : Bool) : Option Fdevents :=
  match ev.fdarray fd with
  | none => none
  | some node =>
    if node.tag ≠ 0 then some ev
    else
      some { ev.setNode fd (some { node with tag := if issock then 1 else 2 }) with
        pendclose := fd :: ev.pendclose }

def fdeventSchedRun : Fdevents :=
  { ev with
    fdarray := fun fd => if fd ∈ ev.pendclose then none else ev.fdarray fd
    pendclose := [] }

/-- The result is the new index of the caller, which is always `-1`. -/
def fdeventPollEventDel (fdeNdx : Option Nat) (fd : Int) : Option Fdevents :=
  match fdeNdx with
  | none => some ev
  | some k =>
    match ev.pollfds[k]? with
    | none => none
    | some slot =>
      if slot.fd = fd then
        some { ev with
          pollfds := ev.pollfds.set k { slot with fd := -1 }
          unused := k :: ev.unused }
      else none

end

def pollEvents (events : BitVec 32) : BitVec 16 :=
  (if events &&& fdeventIn ≠ 0 then pollIn else 0) |||
    (if events &&& fdeventOut ≠ 0 then pollOut else 0)

def fdeventPollEventSet (ev : Fdevents) (fdeNdx : Option Nat) (fd : Int) (events : BitVec 32)
    (junk : BitVec 16) : Option (Fdevents × Nat) :=
  match fdeNdx with
  | some k =>
    match ev.pollfds[k]? with
    | none => none
    | some slot =>
      if slot.fd = fd then
        some ({ ev with
          pollfds := ev.pollfds.set k { slot with events := pollEvents events } }, k)
      else none
  | none =>
    match ev.unused with
    | k :: unused =>
      match ev.pollfds[k]? with
      | none => none
      | some slot =>
        some ({ ev with
          pollfds := ev.pollfds.set k { slot with fd := fd, events := pollEvents events }
          unused := unused }, k)
    | [] =>
      some ({ ev with
        pollfds := ev.pollfds ++ [⟨fd, pollEvents events, junk⟩] }, ev.pollfds.length)

/-- The mapping of `fdevent_poll_event_get_revent`, behind its `POLLNVAL` check. -/
def mapRevents (revents : BitVec 16) : BitVec 32 :=
  (if revents &&& pollIn ≠ 0 then fdeventIn else 0) |||
    (if revents &&& pollOut ≠ 0 then fdeventOut else 0) |||
    (if revents &&& pollErr ≠ 0 then fdeventErr else 0) |||
    (if revents &&& pollHup ≠ 0 then fdeventHup else 0) |||
    (if revents &&& pollNval ≠ 0 then fdeventNval else 0) |||
    (if revents &&& pollPri ≠ 0 then fdeventPri else 0)

def fdeventPollEventGetRevent (ev : Fdevents) (ndx : Nat) : Option (BitVec 32) :=
  match ev.pollfds[ndx]? with
  | none => none
  | some slot => if slot.revents &&& pollNval ≠ 0 then none else some (mapRevents slot.revents)

def fdeventPollEventGetFd (ev : Fdevents) (ndx : Nat) : Option Int :=
  (ev.pollfds[ndx]?).map PollFd.fd

def startNdx : Option Nat → Nat
  | none => 0
  | some ndx => ndx + 1

def reported (slot : PollFd) : Bool :=
  slot.revents ≠ 0

def fdeventPollEventNextFdndx (ev : Fdevents) (ndx : Option Nat) : Option Nat :=
  ((ev.pollfds.drop (startNdx ndx)).findIdx? reported).map (startNdx ndx + ·)

/-- What `fdevent_get_handler` gives; outside `some` the process has failed. The
inner `none` is the null pointer of a descriptor that waits to be closed. -/
def fdeventGetHandler (ev : Fdevents) (fd : Int) : Option (Option Nat) :=
  match ev.fdarray fd with
  | none => none
  | some node =>
    if node.tag ≠ 0 then some none
    else if node.fd ≠ fd then none
    else some (some node.handler)

/-- Where the main loop stands. `look` is the head of the body of the loop with
the last index and the events left, `handling` a handler that is running. -/
inductive Phase
  | idle
  | look (fdNdx : Option Nat) (n : Nat)
  | handling (fdNdx : Option Nat) (n : Nat)
  | closing
  | failed

structure Lookup where
  fd : Int
  revents : BitVec 32
  node : Option FdNode
  called : Option Nat

/-- The server with the indexes its parts keep. `polled` is the array as the last
`poll` left it and `lookups` the look-ups since. -/
structure Server where
  ev : Fdevents
  fdeNdx : Int → Option Nat
  phase : Phase
  polled : List PollFd
  lookups : List Lookup

def Server.setNdx (srv : Server) (ev : Fdevents) (fd : Int) (fdeNdx : Option Nat) : Server :=
  { srv with ev, fdeNdx := update srv.fdeNdx fd fdeNdx }

theorem set_ndx_of_ne (srv : Server) (ev : Fdevents) {fd other : Int} (fdeNdx : Option Nat)
    (isOther : other ≠ fd) : (srv.setNdx ev fd fdeNdx).fdeNdx other = srv.fdeNdx other := by
  simp [Server.setNdx, isOther]

/-- The field `events` behind the pointer of `fdarray`. Through a tagged pointer a read gives
`stray`, other bytes of the node and behind it, and nothing reads what is written there. -/
def FdNode.readEvents (node : FdNode) (stray : BitVec 32) : BitVec 32 :=
  if node.tag ≠ 0 then stray else node.events

def FdNode.writeEvents (node : FdNode) (events : BitVec 32) : FdNode :=
  if node.tag ≠ 0 then node else { node with events }

section

variable (srv : Server) (fd : Int)

/-- What `fdevent_event_set`, `_add` and `_clr` share: `change` gives the new events,
or `none` where there is nothing to do. None of them looks at the tag. -/
def changeEvents (junk : BitVec 16) (stray : BitVec 32)
    (change : BitVec 32 → Option (BitVec 32)) : Option Server :=
  if fd = -1 then some srv
  else
    match srv.ev.fdarray fd with
    | none => none
    | some node =>
      match change (node.readEvents stray) with
      | none => some srv
      | some events =>
        match fdeventPollEventSet srv.ev (srv.fdeNdx fd) fd events junk with
        | none => none
        | some (ev, k) =>
          some (srv.setNdx (ev.setNode fd (some (node.writeEvents events))) fd (some k))

def fdeventEventSet (events : BitVec 32) (junk : BitVec 16)
    (stray : BitVec 32) : Option Server :=
  changeEvents srv fd junk stray fun old => if old = events then none else some events

def fdeventEventAdd (event : BitVec 32) (junk : BitVec 16)
    (stray : BitVec 32) : Option Server :=
  changeEvents srv fd junk stray fun old =>
    if old &&& event ≠ 0 ∨ event = 0 then none else some (old ||| event)

def fdeventEventClr (event : BitVec 32) (junk : BitVec 16)
    (stray : BitVec 32) : Option Server :=
  changeEvents srv fd junk stray fun old =>
    if old &&& event = 0 then none else some (old &&& ~~~event)

def fdeventEventDel : Option Server :=
  if fd = -1 then some srv
  else
    match srv.ev.fdarray fd with
    | none => none
    | some node =>
      if node.tag ≠ 0 then some srv
      else
        match fdeventPollEventDel srv.ev (srv.fdeNdx fd) fd with
        | none => none
        | some ev => some (srv.setNdx (ev.setNode fd (some { node with events := 0 })) fd none)

end

/-- `poll` fills in `revents`, and nothing in a slot without a descriptor. -/
def pollResult (revents : Nat → BitVec 16) (pollfds : List PollFd) : List PollFd :=
  pollfds.mapIdx fun j slot =>
    { slot with revents := if slot.fd < 0 then 0 else revents j }

def pollPhase (n : Nat) : Phase :=
  if 0 < n then .look none n else .closing

/-- The end of the body of the loop, `while (--n > 0)`. -/
def againPhase (fdNdx : Option Nat) (n : Nat) : Phase :=
  if 1 < n then .look fdNdx (n - 1) else .closing

def fdeventPoll (srv : Server) (revents : Nat → BitVec 16) : Server :=
  let pollfds := pollResult revents srv.ev.pollfds
  { srv with
    ev := { srv.ev with pollfds := pollfds }
    phase := pollPhase (pollfds.countP reported)
    polled := pollfds
    lookups := [] }

/-- The body of the loop up to the call of the handler. -/
def turn (srv : Server) (fdNdx : Option Nat) (n : Nat) : Option Server :=
  match fdeventPollEventNextFdndx srv.ev fdNdx with
  | none => some { srv with phase := .closing }
  | some k =>
    match fdeventPollEventGetRevent srv.ev k, fdeventPollEventGetFd srv.ev k with
    | some revents, some fd =>
      let looked : Option Nat → Phase → Server := fun called phase =>
        { srv with
          phase
          lookups := srv.lookups ++ [⟨fd, revents, srv.ev.fdarray fd, called⟩] }
      match fdeventGetHandler srv.ev fd with
      | none => some (looked none .failed)
      | some none => some (looked none (againPhase (some k) n))
      | some (some handler) => some (looked (some handler) (.handling (some k) n))
    | _, _ => none

inductive Label
  | register (fd : Int) (handler : Nat)
  | eventSet (fd : Int) (events : BitVec 32) (junk : BitVec 16) (stray : BitVec 32)
  | eventAdd (fd : Int) (event : BitVec 32) (junk : BitVec 16) (stray : BitVec 32)
  | eventClr (fd : Int) (event : BitVec 32) (junk : BitVec 16) (stray : BitVec 32)
  | eventDel (fd : Int)
  | schedClose (fd : Int) (issock : Bool)
  | poll (revents : Nat → BitVec 16)
  | turn
  | returned
  | schedRun

/-- The server's own code runs between two passes and inside a handler. -/
def Phase.running : Phase → Bool
  | .idle => true
  | .handling _ _ => true
  | _ => false

/-- One call, or one move of the main loop. The system hands out no descriptor
that is open, so one that is registered is not registered again; its new owner
starts with the index `-1`. -/
def step (srv : Server) : Label → Option Server
  | .register fd handler =>
    if srv.phase.running ∧ 0 ≤ fd ∧ srv.ev.fdarray fd = none then
      some (srv.setNdx (fdeventRegister srv.ev fd handler) fd none)
    else none
  | .eventSet fd events junk stray =>
    if srv.phase.running then fdeventEventSet srv fd events junk stray else none
  | .eventAdd fd event junk stray =>
    if srv.phase.running then fdeventEventAdd srv fd event junk stray else none
  | .eventClr fd event junk stray =>
    if srv.phase.running then fdeventEventClr srv fd event junk stray else none
  | .eventDel fd =>
    if srv.phase.running then fdeventEventDel srv fd else none
  | .schedClose fd issock =>
    if srv.phase.running then
      (fdeventSchedClose srv.ev fd issock).map fun ev => { srv with ev }
    else none
  | .poll revents =>
    match srv.phase with
    | .idle => some (fdeventPoll srv revents)
    | _ => none
  | .turn =>
    match srv.phase with
    | .look fdNdx n => turn srv fdNdx n
    | _ => none
  | .returned =>
    match srv.phase with
    | .handling fdNdx n => some { srv with phase := againPhase fdNdx n }
    | _ => none
  | .schedRun =>
    match srv.phase with
    | .closing => some { srv with ev := fdeventSchedRun srv.ev, phase := .idle }
    | _ => none

def fdeventInit : Server where
  ev := ⟨fun _ => none, [], [], []⟩
  fdeNdx := fun _ => none
  phase := .idle
  polled := []
  lookups := []

def mainLoop : System Server Label where
  initial := fun srv => srv = fdeventInit
  next := fun before label after => step before label = some after

/-- What the pass promises: each look-up finds a registered descriptor, and a
handler runs for a descriptor that this `poll` reported, with what it reported,
and for none a second time. -/
structure Dispatched (srv : Server) : Prop where
  registered : ∀ lookup ∈ srv.lookups, 0 ≤ lookup.fd ∧ lookup.node.isSome
  wasReported : ∀ lookup ∈ srv.lookups, lookup.called.isSome →
    ∃ slot ∈ srv.polled, reported slot ∧ slot.fd = lookup.fd ∧
      mapRevents slot.revents = lookup.revents
  once : ((srv.lookups.filter fun lookup => lookup.called.isSome).map Lookup.fd).Nodup

end ServerCore.LighttpdFdeventPoll
