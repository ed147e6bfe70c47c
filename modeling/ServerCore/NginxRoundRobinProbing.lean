import ServerCore.NginxRoundRobinInvariant

/-!
# Probing of failed peers

A peer whose failures have reached `max_fails` is skipped until `fail_timeout` seconds
have passed since it was last checked. The selection that takes it then is a check
itself, so the next one has to wait as long again, whatever the other requests do
in between, unless one of them finds the peer alive.
-/

namespace ServerCore.NginxRoundRobinProbing

open TransitionSystem NginxUpstreamRoundRobin NginxRoundRobinSelection NginxRoundRobinInvariant

variable {index : Nat} {peers : List Peer} {peer : Peer}

/-- A failed peer that has been checked at the time `since` or later. -/
structure Failed (limit : Nat) (timeout since : Int) (peer : Peer) : Prop where
  isLimit : peer.maxFails = limit
  positive : 0 < limit
  isTimeout : peer.failTimeout = timeout
  fails : limit ≤ peer.fails
  checked : since ≤ peer.checked

variable {tried : List Word}

section Peers

variable {limit : Nat} {timeout since now : Int} {peer : Peer}

section

variable (failed : Failed limit timeout since peer)
include failed

theorem skipped_failed
    (taken : skipped now tried index peer = false) : timeout < now - peer.checked := by
  have isLimit := failed.isLimit
  have positive := failed.positive
  have fails := failed.fails
  have isTimeout := failed.isTimeout
  simp only [skipped, Bool.or_eq_false_iff, Bool.and_eq_false_iff, bne_eq_false_iff_eq,
    decide_eq_false_iff_not] at taken
  omega

theorem visited_failed : Failed limit timeout since (visited now tried index peer) := by
  unfold visited
  split_ifs
  · exact failed
  · exact ⟨failed.isLimit, failed.positive, failed.isTimeout, failed.fails, failed.checked⟩

theorem settle_failed {total : Int} (later : since ≤ now) :
    Failed limit timeout since (peer.settle now total) := by
  refine ⟨failed.isLimit, failed.positive, failed.isTimeout, failed.fails, ?_⟩
  have checked := failed.checked
  dsimp only [Peer.settle]
  split_ifs
  · exact later
  · exact checked

end

section

variable (failed : Failed limit timeout since peer)
include failed

theorem acquire_failed : Failed limit timeout since peer.acquire :=
  ⟨failed.isLimit, failed.positive, failed.isTimeout, failed.fails, failed.checked⟩

theorem release_failed : Failed limit timeout since peer.release :=
  ⟨failed.isLimit, failed.positive, failed.isTimeout, failed.fails, failed.checked⟩

theorem fail_failed (later : since ≤ now) : Failed limit timeout since (peer.fail now) :=
  ⟨failed.isLimit, failed.positive, failed.isTimeout, Nat.le_succ_of_le failed.fails, later⟩

theorem pass_failed (notAlive : ¬ peer.accessed < peer.checked) : Failed limit timeout since peer.pass := by
  refine ⟨failed.isLimit, failed.positive, failed.isTimeout, ?_, failed.checked⟩
  dsimp only [Peer.pass]
  rw [if_neg notAlive]
  exact failed.fails

end

end Peers

section Runs

variable {count : Nat}

def peerAt (state : State count) (list : ListId) (index : Nat) : Option Peer :=
  (state.upstream.peers list).peer[index]?

/-- The event takes the peer `index` of `list` at the time `now`. -/
def Selects (state : State count) (event : Event count) (list : ListId) (index : Nat) (now : Int) :
    Prop :=
  ∃ client, event = .get client now ∧ (state.request client).data.peers = list ∧
    (ngxHttpUpstreamGetPeer now (state.request client).data.tried
      (state.upstream.peers list).peer).chosen = some index

def Recovers (state : State count) (event : Event count) (list : ListId) (index : Nat) : Prop :=
  ∃ client now peer, event = .free client now false ∧
    (state.request client).data.current = some (list, index) ∧
    peerAt state list index = some peer ∧ peer.accessed < peer.checked

def timeOf : Event count → Option Int
  | .start _ => none
  | .get _ now => some now
  | .free _ now _ => some now

/-- The balancer with its clock, as long as the peer is not found alive. -/
def unrecovered (count : Nat) (list : ListId) (index : Nat) : System (State count × Int) (Event count) where
  initial _ := True
  next before event after := Enabled before.1 event ∧ after.1 = step before.1 event ∧
    before.2 ≤ after.2 ∧ (∀ now, timeOf event = some now → now = after.2) ∧
    ¬ Recovers before.1 event list index

structure Watched (list : ListId) (index limit : Nat) (timeout since : Int) (state : State count × Int) :
    Prop where
  multiple : ∀ list, (state.1.upstream.peers list).single = false
  failed : ∃ peer, peerAt state.1 list index = some peer ∧ Failed limit timeout since peer
  later : since ≤ state.2

variable {list : ListId} {index limit : Nat} {timeout since : Int}

theorem peer_after_set {upstream : Upstream} {own : ListId}
    (nonempty : (upstream.peers own).peer ≠ []) (list : ListId) (index : Nat) :
    ((upstream.setPeer peers own).peers list).peer[index]? =
      if list = own then peers[index]? else (upstream.peers list).peer[index]? := by
  by_cases same : list = own
  · rw [if_pos same, same, peers_set_same peers nonempty]
  · rw [if_neg same, peers_set_other peers same]

theorem single_after_set (upstream : Upstream) (own : ListId) (peers : List Peer) (list : ListId) :
    ((upstream.setPeer peers own).peers list).single = (upstream.peers list).single := by
  by_cases same : list = own
  · rw [same]
    cases own with
    | primary => rfl
    | backup => cases isBackup : upstream.backup <;> simp [Upstream.setPeer, Upstream.peers, isBackup]
  · rw [peers_set_other peers same]

variable {now : Int} {event : Event count}

theorem get_keeps_failed {chosen : Nat}
    (isChosen : (ngxHttpUpstreamGetPeer now tried peers).chosen = some chosen)
    (found : peers[index]? = some peer) (failed : Failed limit timeout since peer) (later : since ≤ now) :
    ∃ after, ((ngxHttpUpstreamGetPeer now tried peers).peer.modify chosen Peer.acquire)[index]? =
    some after ∧
      Failed limit timeout since after := by
  obtain ⟨total, isAfter⟩ := get_peer_at isChosen
  rw [List.getElem?_modify, isAfter, found]
  by_cases same : chosen = index
  · refine ⟨((visited now tried index peer).settle now total).acquire, ?_, ?_⟩
    · simp [same]
    · exact acquire_failed (settle_failed (visited_failed failed) later)
  · refine ⟨visited now tried index peer, ?_, visited_failed failed⟩
    simp [same]

theorem watched_next {before after : State count × Int}
    (watched : Watched list index limit timeout since before)
    (moved : (unrecovered count list index).next before event after) :
    Watched list index limit timeout since after := by
  obtain ⟨enabled, isAfter, forward, timed, quiet⟩ := moved
  obtain ⟨multiple, ⟨peer, found, failed⟩, later⟩ := watched
  obtain ⟨state, clock⟩ := after
  dsimp only at isAfter forward timed
  have laterClock : since ≤ clock := Int.le_trans later forward
  rw [isAfter]
  cases event with
  | start client => exact ⟨multiple, ⟨peer, found, failed⟩, laterClock⟩
  | get client now =>
    have isNow : now = clock := timed now rfl
    have laterNow : since ≤ now := by rw [isNow]; exact laterClock
    rcases get_section_cases now before.1.upstream (before.1.request client).data (multiple _) with
      ⟨chosen, tried, isChosen, done⟩ | ⟨outcome, data, -, done⟩
    · obtain ⟨_, _, isPlace, _⟩ := get_peer_some isChosen
      have nonempty : (before.1.upstream.peers (before.1.request client).data.peers).peer ≠ [] := by
        intro isNil
        rw [isNil] at isPlace
        cases isPlace
      refine ⟨?_, ?_, laterClock⟩
      · intro other
        simp only [step, State.set, done]
        rw [single_after_set]
        exact multiple other
      · simp only [peerAt, step, State.set, done, peer_after_set nonempty]
        by_cases own : list = (before.1.request client).data.peers
        · rw [if_pos own]
          rw [peerAt, own] at found
          exact get_keeps_failed isChosen found failed laterNow
        · rw [if_neg own]
          exact ⟨peer, found, failed⟩
    · simp only [step, State.set, done]
      exact ⟨multiple, ⟨peer, found, failed⟩, laterClock⟩
  | free client now isFailure =>
    have isNow : now = clock := timed now rfl
    have laterNow : since ≤ now := by rw [isNow]; exact laterClock
    cases isCurrent : (before.1.request client).data.current with
    | none =>
      simp only [step, State.set, ngxHttpUpstreamFreeRoundRobinPeer, isCurrent]
      exact ⟨multiple, ⟨peer, found, failed⟩, laterClock⟩
    | some place =>
      obtain ⟨own, at_⟩ := place
      have isStep : (step before.1 (.free client now isFailure)).upstream =
          before.1.upstream.setPeer ((before.1.upstream.peers own).peer.modify at_ fun peer =>
            (if isFailure then peer.fail now else peer.pass).release) own := by
        simp [step, State.set, ngxHttpUpstreamFreeRoundRobinPeer, isCurrent, multiple]
      refine ⟨?_, ?_, laterClock⟩
      · intro other
        rw [isStep, single_after_set]
        exact multiple other
      · dsimp only
        rw [peerAt, isStep]
        by_cases own_ : list = own
        · have nonempty : (before.1.upstream.peers own).peer ≠ [] := by
            intro isNil
            rw [peerAt, own_, isNil] at found
            cases found
          rw [peer_after_set nonempty, if_pos own_, List.getElem?_modify]
          rw [peerAt, own_] at found
          rw [found]
          by_cases same : at_ = index
          · refine ⟨(if isFailure then peer.fail now else peer.pass).release, ?_, ?_⟩
            · simp [same]
            · apply release_failed
              cases isFailure with
              | true => exact fail_failed failed laterNow
              | false =>
                refine pass_failed failed ?_
                intro alive
                refine quiet ⟨client, now, peer, rfl, ?_, ?_, alive⟩
                · rw [isCurrent, own_, same]
                · rw [peerAt, own_]
                  exact found
          · exact ⟨peer, by simp [same], failed⟩
        · rw [peers_set_other _ own_]
          exact ⟨peer, found, failed⟩

theorem watched_run {first second : State count × Int} {labels : List (Event count)}
    (run : Run (unrecovered count list index) first labels second)
    (watched : Watched list index limit timeout since first) :
    Watched list index limit timeout since second :=
  run_preserves (fun _ _ _ watched moved => watched_next watched moved) run watched

theorem selection_checks {state : State count}
    (multiple : ∀ list, (state.upstream.peers list).single = false)
    (found : peerAt state list index = some peer) (limited : 0 < peer.maxFails)
    (fails : peer.maxFails ≤ peer.fails) (selected : Selects state event list index now) :
    Watched list index peer.maxFails peer.failTimeout now (step state event, now) := by
  obtain ⟨client, rfl, rfl, isChosen⟩ := selected
  have failed : Failed peer.maxFails peer.failTimeout peer.checked peer :=
    ⟨rfl, limited, rfl, fails, Int.le_refl _⟩
  obtain ⟨_, picked, isPlace, taken, _⟩ := get_peer_some isChosen
  have same : picked = peer := Option.some.inj (isPlace.symm.trans found)
  rw [same] at taken
  have waited := skipped_failed failed taken
  have nonempty : (state.upstream.peers (state.request client).data.peers).peer ≠ [] := by
    intro isNil
    rw [isNil] at isPlace
    cases isPlace
  rcases get_section_cases now state.upstream (state.request client).data (multiple _) with
    ⟨chosen, tried, alsoChosen, done⟩ | ⟨outcome, data, notOk, done⟩
  · have isIndex : chosen = index := Option.some.inj (alsoChosen.symm.trans isChosen)
    rw [isIndex] at done
    refine ⟨?_, ?_, Int.le_refl _⟩
    · intro other
      simp only [step, State.set, done]
      rw [single_after_set]
      exact multiple other
    · obtain ⟨total, isAfter⟩ := get_peer_at isChosen
      have isVisited : visited now (state.request client).data.tried index peer = peer.bump := by
        simp [visited, taken]
      refine ⟨((peer.bump).settle now total).acquire, ?_, ?_⟩
      · simp only [peerAt, step, State.set, done, peer_after_set nonempty, if_pos]
        rw [List.getElem?_modify, isAfter, isPlace, same]
        simp [isVisited]
      · refine ⟨rfl, limited, rfl, fails, ?_⟩
        have outdated : now - peer.bump.checked > peer.bump.failTimeout := waited
        dsimp only [Peer.acquire, Peer.settle]
        rw [if_pos outdated]
  · refine absurd ?_ notOk
    simp only [getSection, choose_eq_get_peer (multiple _), isChosen] at done
    injection done with isOutcome
    exact isOutcome.symm

/-- A failed peer is taken at most once in `fail_timeout` seconds, until it is found
alive. -/
theorem failed_peer_probed_once {state : State count} {event again : Event count} {now now' : Int}
    {peer : Peer} {labels : List (Event count)} {second : State count × Int}
    (multiple : ∀ list, (state.upstream.peers list).single = false)
    (found : peerAt state list index = some peer) (limited : 0 < peer.maxFails)
    (fails : peer.maxFails ≤ peer.fails) (selected : Selects state event list index now)
    (run : Run (unrecovered count list index) (step state event, now) labels second)
    (reselected : Selects second.1 again list index now') : peer.failTimeout < now' - now := by
  obtain ⟨-, ⟨later, foundLater, failed⟩, -⟩ :=
    watched_run run (selection_checks multiple found limited fails selected)
  obtain ⟨client, -, -, isChosen⟩ := reselected
  obtain ⟨_, chosen, isPlace, taken, _⟩ := get_peer_some isChosen
  have same : chosen = later := Option.some.inj (isPlace.symm.trans foundLater)
  rw [same] at taken
  have waited := skipped_failed failed taken
  have checked := failed.checked
  omega

def failedServer : Peer where
  currentWeight := 0
  effectiveWeight := 1
  weight := 1
  conns := 0
  maxConns := 0
  fails := 1
  accessed := 0
  checked := 0
  maxFails := 1
  failTimeout := 10
  down := false

def probedStart : State 1 where
  upstream := ⟨⟨false, [failedServer, { failedServer with down := true }]⟩, none⟩
  request _ := ⟨⟨.primary, none, [0], 2⟩, false⟩

def probe : Event 1 := .get 0 100

def probeFailed : Event 1 := .free 0 101 true

def nextRequest : Event 1 := .start 0

def afterProbe : State 1 := step probedStart probe

def afterFailure : State 1 := step afterProbe probeFailed

def atNextRequest : State 1 := step afterFailure nextRequest

theorem failed_server_probed_twice :
    Selects probedStart probe .primary 0 100 ∧ Selects atNextRequest (.get 0 112) .primary 0 112 ∧
      failedServer.failTimeout < 112 - 100 := by
  have multiple : ∀ list, (probedStart.upstream.peers list).single = false := by
    intro list
    cases list <;> rfl
  have toFailure : (unrecovered 1 .primary 0).next (afterProbe, 100) probeFailed (afterFailure, 101) := by
    refine ⟨rfl, rfl, by decide, ?_, ?_⟩
    · intro now isNow
      exact (Option.some.inj isNow).symm
    · rintro ⟨_, _, _, isEvent, _⟩
      cases isEvent
  have toRequest : (unrecovered 1 .primary 0).next (afterFailure, 101) nextRequest (atNextRequest, 101) := by
    refine ⟨rfl, rfl, by decide, ?_, ?_⟩
    · intro now isNow
      cases isNow
    · rintro ⟨_, _, _, isEvent, _⟩
      cases isEvent
  have selected : Selects probedStart probe .primary 0 100 := ⟨0, rfl, rfl, by decide⟩
  have again : Selects atNextRequest (.get 0 112) .primary 0 112 := ⟨0, rfl, rfl, by decide⟩
  have run : Run (unrecovered 1 .primary 0) (afterProbe, 100) ([] ++ [probeFailed] ++ [nextRequest])
      (atNextRequest, 101) := (Run.refl.step toFailure).step toRequest
  exact ⟨selected, again, failed_peer_probed_once multiple
    (rfl : peerAt probedStart .primary 0 = some failedServer) (by decide) (by decide) selected run again⟩

end Runs

end ServerCore.NginxRoundRobinProbing
