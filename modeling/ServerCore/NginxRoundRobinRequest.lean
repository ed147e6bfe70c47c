import ServerCore.NginxRoundRobinInvariant

/-!
# The peers one request is given

A request marks every peer it is given in its bitmap of words and never unmarks
one, except when it moves to the backup servers, where it clears the words for
them and starts anew.
-/

namespace ServerCore.NginxRoundRobinRequest

open TransitionSystem NginxUpstreamRoundRobin NginxRoundRobinSelection NginxRoundRobinInvariant List

variable {upstream : Upstream}

variable {number words index : Nat} {list : ListId}

section Words

theorem bit_nonzero {place : Nat} (small : place < 64) : (1 : Word) <<< place ≠ 0 := by
  intro isZero
  have bit : ((1 : Word) <<< place).getLsbD place = (0 : Word).getLsbD place := by rw [isZero]
  simp [small] at bit

theorem or_keeps {old bit mask : Word} (already : old &&& mask ≠ 0) : (old ||| bit) &&& mask ≠ 0 := by
  intro isZero
  apply already
  apply BitVec.eq_of_getLsbD_eq
  intro place small
  have bits := congrArg (fun word => BitVec.getLsbD word place) isZero
  simp only [BitVec.getLsbD_and, BitVec.getLsbD_or, BitVec.ofNat_eq_ofNat, BitVec.getLsbD_zero] at bits ⊢
  cases isOld : old.getLsbD place <;> cases isMask : mask.getLsbD place <;> simp_all

theorem or_own (old bit : Word) : (old ||| bit) &&& bit = bit := by
  apply BitVec.eq_of_getLsbD_eq
  intro place small
  simp only [BitVec.getLsbD_and, BitVec.getLsbD_or]
  cases old.getLsbD place <;> cases bit.getLsbD place <;> rfl

variable {tried : List Word} {index other : Nat}

theorem is_tried_mark (inside : index / wordBits < tried.length) (already : isTried tried other = true) :
    isTried (markTried tried index) other = true := by
  unfold isTried markTried at *
  by_cases same : index / wordBits = other / wordBits
  · rw [getD_eq_getElem?_getD, same, getElem?_set_self (by rw [← same]; exact inside)]
    rw [bne_iff_ne] at already ⊢
    exact or_keeps already
  · rw [getD_eq_getElem?_getD, getElem?_set_ne same, ← getD_eq_getElem?_getD]
    exact already

theorem is_tried_own (inside : index / wordBits < tried.length) :
    isTried (markTried tried index) index = true := by
  have small : index % wordBits < 64 := Nat.mod_lt _ (by decide)
  unfold isTried markTried
  rw [getD_eq_getElem?_getD, getElem?_set_self inside, bne_iff_ne, Option.getD_some, or_own]
  exact bit_nonzero small

end Words

/-- One request, the peers it shares with others, and the peers it has been given. -/
structure Serving where
  upstream : Upstream
  data : PeerData
  given : List (ListId × Nat)

/-- The lists have as many peers as before; what the peers say may differ. -/
def SameLists (upstream other : Upstream) : Prop :=
  ∀ list, (other.peers list).peer.length = (upstream.peers list).peer.length ∧
    (other.peers list).single = (upstream.peers list).single

/-- What happens: the request asks for a peer or frees the one it has, or other requests
change the shared peers. -/
inductive Event
  | get (now : Int)
  | free (now : Int) (failed : Bool)
  | others (upstream : Upstream)

def getPeer (now : Int) (serving : Serving) : Serving :=
  let done := ngxHttpUpstreamGetRoundRobinPeer now serving.upstream serving.data
  ⟨done.2.1, done.2.2,
    if done.1 then serving.given ++ done.2.2.current.toList else serving.given⟩

def freePeer (now : Int) (failed : Bool) (serving : Serving) : Serving :=
  let done := ngxHttpUpstreamFreeRoundRobinPeer now failed serving.upstream serving.data
  ⟨done.1, done.2, serving.given⟩

def serving : System Serving Event where
  initial state := (∀ list, (state.upstream.peers list).single = false) ∧
    state.data = ngxHttpUpstreamInitRoundRobinPeer state.upstream ∧ state.given = []
  next before event after :=
    match event with
    | .get now => after = getPeer now before
    | .free now failed => after = freePeer now failed before
    | .others upstream =>
      SameLists before.upstream upstream ∧ after = { before with upstream := upstream }

def wordsFor (number : Nat) : Nat := (number + (wordBits - 1)) / wordBits

structure Inv (state : Serving) : Prop where
  multiple : ∀ list, (state.upstream.peers list).single = false
  words : ∀ list, wordsFor (state.upstream.peers list).peer.length ≤ state.data.tried.length
  inside : ∀ list index, (list, index) ∈ state.given →
    index < (state.upstream.peers list).peer.length
  marked : ∀ index, (state.data.peers, index) ∈ state.given → isTried state.data.tried index = true
  notYet : state.data.peers = .primary → ∀ index, (ListId.backup, index) ∉ state.given
  distinct : state.given.Nodup

section Steps

variable {state : Serving} {now : Int}

theorem word_inside (enough : wordsFor number ≤ words)
    (inside : index < number) : index / wordBits < words := by
  unfold wordsFor wordBits at *
  omega

theorem peer_lengths {own : ListId} {peers : List Peer}
    (size : peers.length = (upstream.peers own).peer.length) :
    ((upstream.setPeer peers own).peers list).peer.length = (upstream.peers list).peer.length ∧
      ((upstream.setPeer peers own).peers list).single = (upstream.peers list).single := by
  cases own <;> cases list
  · exact ⟨size, rfl⟩
  · exact ⟨rfl, rfl⟩
  · exact ⟨rfl, rfl⟩
  · cases isBackup : upstream.backup with
    | none => simp [Upstream.setPeer, Upstream.peers, isBackup]
    | some backup =>
      simp [Upstream.setPeer, Upstream.peers, isBackup, size]

theorem inv_upstream {upstream : Upstream} (inv : Inv state) (same : SameLists state.upstream upstream) :
    Inv { state with upstream := upstream } := by
  refine ⟨?_, ?_, ?_, inv.marked, inv.notYet, inv.distinct⟩
  · intro list
    rw [(same list).2]
    exact inv.multiple list
  · intro list
    rw [(same list).1]
    exact inv.words list
  · intro list index mem
    rw [(same list).1]
    exact inv.inside list index mem

def afterSection (done : Section) (given : List (ListId × Nat)) : Serving :=
  ⟨done.upstream, done.data, if done.outcome = .ok then given ++ done.data.current.toList else given⟩

theorem chosen_inv (inv : Inv state)
    (chosen : (ngxHttpUpstreamGetPeer now state.data.tried
      (state.upstream.peers state.data.peers).peer).chosen = some index) {current : Option (ListId × Nat)} :
    Inv ⟨state.upstream, { state.data with current := current, tried := markTried state.data.tried index },
      state.given ++ [(state.data.peers, index)]⟩ := by
  obtain ⟨_, peer, isPlace, taken, _⟩ := get_peer_some chosen
  have isInside : index < (state.upstream.peers state.data.peers).peer.length :=
    (List.getElem?_eq_some_iff.1 isPlace).1
  have inWords : index / wordBits < state.data.tried.length := word_inside (inv.words _) isInside
  have untried : isTried state.data.tried index = false := by
    simp only [skipped, Bool.or_eq_false_iff] at taken
    exact taken.1.1.1
  have notGiven : (state.data.peers, index) ∉ state.given := by
    intro mem
    rw [inv.marked index mem] at untried
    cases untried
  refine ⟨inv.multiple, ?_, ?_, ?_, ?_, ?_⟩
  · intro list
    rw [markTried, length_set]
    exact inv.words list
  · intro list other mem
    rcases mem_append.1 mem with isBefore | isNew
    · exact inv.inside list other isBefore
    · cases mem_singleton.1 isNew
      exact isInside
  · intro other mem
    rcases mem_append.1 mem with isBefore | isNew
    · exact is_tried_mark inWords (inv.marked other isBefore)
    · cases mem_singleton.1 isNew
      exact is_tried_own inWords
  · intro isPrimary other mem
    rcases mem_append.1 mem with isBefore | isNew
    · exact inv.notYet isPrimary other isBefore
    · have isList := congrArg Prod.fst (mem_singleton.1 isNew)
      rw [isPrimary] at isList
      cases isList
  · rw [nodup_append]
    refine ⟨inv.distinct, nodup_singleton _, ?_⟩
    intro place isBefore other isNew same
    rw [mem_singleton.1 isNew] at same
    rw [same] at isBefore
    exact notGiven isBefore

theorem moved_inv (inv : Inv state) (isPrimary : state.data.peers = .primary) :
    Inv ⟨state.upstream, { state.data with
      peers := .backup
      tried := List.replicate words 0 ++ state.data.tried.drop words }, state.given⟩ := by
  refine ⟨inv.multiple, ?_, inv.inside, ?_, ?_, inv.distinct⟩
  · intro list
    have enough := inv.words list
    dsimp only
    rw [length_append, length_replicate, length_drop]
    omega
  · intro index mem
    exact absurd mem (inv.notYet isPrimary index)
  · nofun

theorem section_inv (now : Int) (inv : Inv state) :
    Inv (afterSection (getSection now state.upstream state.data) state.given) := by
  cases chosen : (ngxHttpUpstreamGetPeer now state.data.tried
      (state.upstream.peers state.data.peers).peer).chosen with
  | some index =>
    obtain ⟨_, _, _, _, _, _, isTried_, _⟩ := get_peer_some chosen
    simp only [getSection, choose_eq_get_peer (inv.multiple _), chosen, afterSection, isTried_,
      Option.toList_some, if_true]
    refine @inv_upstream ⟨state.upstream, _, _⟩ _ (chosen_inv inv chosen) ?_
    intro list
    exact peer_lengths
      (by rw [length_modify, get_peer_length])
  | none =>
    cases isNext : state.upstream.next state.data.peers with
    | none =>
      simp only [getSection, choose_eq_get_peer (inv.multiple _), chosen, isNext, afterSection]
      exact inv
    | some backup =>
      simp only [getSection, choose_eq_get_peer (inv.multiple _), chosen, isNext, afterSection]
      refine moved_inv inv ?_
      cases isList : state.data.peers with
      | primary => rfl
      | backup =>
        rw [isList] at isNext
        cases isNext

theorem get_inv (inv : Inv state) : Inv (getPeer now state) := by
  have first := section_inv now inv
  unfold getPeer ngxHttpUpstreamGetRoundRobinPeer
  generalize getSection now state.upstream state.data = done at first
  obtain ⟨outcome, upstream, data⟩ := done
  cases outcome with
  | ok => exact first
  | busy => exact first
  | retry =>
    have second := section_inv now first
    simp only [decide_eq_true_eq]
    exact second

theorem free_inv {failed : Bool} (inv : Inv state) : Inv (freePeer now failed state) := by
  cases isCurrent : state.data.current with
  | none =>
    simp only [freePeer, ngxHttpUpstreamFreeRoundRobinPeer, isCurrent]
    exact inv
  | some place =>
    obtain ⟨own, index⟩ := place
    have tries : Inv { state with data := { state.data with tries := state.data.tries - 1 } } :=
      ⟨inv.multiple, inv.words, inv.inside, inv.marked, inv.notYet, inv.distinct⟩
    simp only [freePeer, ngxHttpUpstreamFreeRoundRobinPeer, isCurrent, inv.multiple, Bool.false_eq_true,
      if_false]
    rw [← isCurrent]
    refine @inv_upstream _ _ tries ?_
    intro list
    exact peer_lengths (length_modify ..)

theorem words_for_mono {larger : Nat} (less : number ≤ larger) :
    wordsFor number ≤ if larger ≤ wordBits then 1 else wordsFor larger := by
  by_cases inOne : larger ≤ wordBits
  · rw [if_pos inOne]
    unfold wordsFor wordBits at *
    omega
  · rw [if_neg inOne]
    exact Nat.div_le_div_right (Nat.add_le_add_right less _)

theorem tried_words_enough : wordsFor (upstream.peers list).peer.length ≤ triedWords upstream := by
  cases isBackup : upstream.backup with
  | none =>
    have isTriedWords : triedWords upstream = if upstream.primary.peer.length ≤ wordBits then 1
        else wordsFor upstream.primary.peer.length := by
      simp only [triedWords, isBackup, wordsFor]
    rw [isTriedWords]
    refine words_for_mono ?_
    cases list <;> simp [Upstream.peers, isBackup]
  | some backup =>
    have isTriedWords : triedWords upstream =
        if (if backup.peer.length > upstream.primary.peer.length then backup.peer.length
          else upstream.primary.peer.length) ≤ wordBits then 1
        else wordsFor (if backup.peer.length > upstream.primary.peer.length then backup.peer.length
          else upstream.primary.peer.length) := by
      simp only [triedWords, isBackup, wordsFor]
    rw [isTriedWords]
    refine words_for_mono ?_
    cases list <;> simp only [Upstream.peers, isBackup, Option.getD_some] <;> split_ifs <;> omega

theorem initial_inv (first : serving.initial state) : Inv state := by
  obtain ⟨multiple, isData, noneGiven⟩ := first
  refine ⟨multiple, ?_, ?_, ?_, ?_, ?_⟩
  · intro list
    rw [isData]
    simp only [ngxHttpUpstreamInitRoundRobinPeer, length_replicate]
    exact tried_words_enough
  · rw [noneGiven]
    exact nofun
  · rw [noneGiven]
    exact nofun
  · rw [noneGiven]
    exact nofun
  · rw [noneGiven]
    exact nodup_nil

theorem next_inv {after : Serving} {event : Event} (inv : Inv state)
    (moved : serving.next state event after) : Inv after := by
  cases event with
  | get now =>
    have isAfter : after = getPeer now state := moved
    rw [isAfter]
    exact get_inv inv
  | free now failed =>
    have isAfter : after = freePeer now failed state := moved
    rw [isAfter]
    exact free_inv inv
  | others upstream =>
    obtain ⟨same, rfl⟩ := moved
    exact inv_upstream inv same

theorem reachable_inv (reached : Reachable serving state) : Inv state :=
  reachable_invariant (fun _ first => initial_inv first) (fun _ _ _ inv moved => next_inv inv moved) reached

def places (upstream : Upstream) (list : ListId) : List (ListId × Nat) :=
  (List.range (upstream.peers list).peer.length).map fun index => (list, index)

theorem given_count (inv : Inv state) : state.given.length ≤ (state.upstream.peers .primary).peer.length +
      (state.upstream.peers .backup).peer.length := by
  have among : state.given ⊆ places state.upstream .primary ++ places state.upstream .backup := by
    rintro ⟨list, index⟩ mem
    have inside := inv.inside list index mem
    have isPlace : (list, index) ∈ places state.upstream list :=
      mem_map.2 ⟨index, mem_range.2 inside, rfl⟩
    cases list with
    | primary => exact mem_append_left _ isPlace
    | backup => exact mem_append_right _ isPlace
  have bound := (inv.distinct.subperm among).length_le
  rw [length_append, places, places, length_map, length_map, length_range, length_range] at bound
  exact bound

/-- One request is never given a peer twice, is given no more peers than there are, and
uses only words of the bitmap that it has. -/
theorem peers_given_once (reached : Reachable serving state) : state.given.Nodup ∧
      state.given.length ≤ (state.upstream.peers .primary).peer.length +
        (state.upstream.peers .backup).peer.length ∧
      (∀ list index, index < (state.upstream.peers list).peer.length →
        index / wordBits < state.data.tried.length) ∧
      ∀ list, wordsFor (state.upstream.peers list).peer.length ≤ state.data.tried.length := by
  have inv := reachable_inv reached
  refine ⟨inv.distinct, given_count inv, ?_, inv.words⟩
  intro list index inside
  exact word_inside (inv.words list) inside

def twoServers : Upstream := implicitUpstream 2

def servingStart : Serving := ⟨twoServers, ngxHttpUpstreamInitRoundRobinPeer twoServers, []⟩

theorem two_servers_given_once :
    (getPeer 6 (freePeer 5 true (getPeer 1 servingStart))).given = [(.primary, 0), (.primary, 1)] ∧
      (getPeer 6 (freePeer 5 true (getPeer 1 servingStart))).given.Nodup := by
  have multiple : ∀ list, (servingStart.upstream.peers list).single = false := by
    intro list
    cases list <;> rfl
  have start : Reachable serving servingStart := reachable_initial ⟨multiple, rfl, rfl⟩
  have first := @reachable_next _ _ serving servingStart _ (.get 1) start rfl
  have freed := @reachable_next _ _ serving (getPeer 1 servingStart) _ (.free 5 true) first rfl
  have second := @reachable_next _ _ serving (freePeer 5 true (getPeer 1 servingStart)) _ (.get 6) freed rfl
  exact ⟨by decide, (peers_given_once second).1⟩

end Steps

end ServerCore.NginxRoundRobinRequest
