import ServerCore.TransitionSystem
import ServerCore.NginxRoundRobinCredits
import Mathlib.Data.Fintype.Card

/-!
# The shared state of the balancer over every interleaving

Any number of requests share the peers of an upstream. A step is one locked
section of one of them: a section of `ngx_http_upstream_get_round_robin_peer`,
which ends with a peer or moves the request to the backup list, a whole
`ngx_http_upstream_free_round_robin_peer`, or the start of a new request.
-/

namespace ServerCore.NginxRoundRobinInvariant

open TransitionSystem NginxUpstreamRoundRobin NginxRoundRobinSelection NginxRoundRobinCredits Function

variable {index : Nat}
variable {peer : Peer} {now : Int} {count : Nat} {client : Fin count} {data : PeerData}

structure Request where
  data : PeerData
  holding : Bool

structure State (count : Nat) where
  upstream : Upstream
  request : Fin count → Request

inductive Event (count : Nat)
  | start (client : Fin count)
  | get (client : Fin count) (now : Int)
  | free (client : Fin count) (now : Int) (failed : Bool)

def State.set {count : Nat} (state : State count) (client : Fin count) (upstream : Upstream)
    (request : Request) : State count :=
  { upstream := upstream, request := update state.request client request }

variable {state : State count}

/-- A request asks for a peer only when it holds none, and frees the one it holds. -/
def Enabled {count : Nat} (state : State count) : Event count → Prop
  | .start client | .get client _ => (state.request client).holding = false
  | .free client _ _ => (state.request client).holding = true

def step {count : Nat} (state : State count) : Event count → State count
  | .start client =>
    state.set client state.upstream ⟨ngxHttpUpstreamInitRoundRobinPeer state.upstream, false⟩
  | .get client now =>
    let done := getSection now state.upstream (state.request client).data
    state.set client done.upstream ⟨done.data, done.outcome = .ok⟩
  | .free client now failed =>
    let done := ngxHttpUpstreamFreeRoundRobinPeer now failed state.upstream
      (state.request client).data
    state.set client done.1 ⟨done.2, false⟩

/-- An upstream as the configuration builds it, with more than one peer. -/
def Configured (upstream : Upstream) : Prop :=
  upstream.primary.single = false ∧
    ((∃ servers, ngxHttpUpstreamInitRoundRobin servers = some upstream) ∨
      ∃ naddrs, upstream = implicitUpstream naddrs)

def balancer (count : Nat) : System (State count) (Event count) where
  initial state := Configured state.upstream ∧
    ∀ client, state.request client = ⟨ngxHttpUpstreamInitRoundRobinPeer state.upstream, false⟩
  next before event after := Enabled before event ∧ after = step before event

/-- What holds of a list whose peer `index` is held by `held index` requests. -/
structure ListInv (list : List Peer) (held : Nat → Nat) : Prop where
  sum : (2 ^ 64 : Int) ∣ currentWeights list
  balanced : Fits list → Balanced list
  effective : ∀ (index : Nat) (peer : Peer), list[index]? = some peer →
    0 ≤ peer.effectiveWeight ∧ peer.effectiveWeight ≤ peer.weight
  conns : ∀ (index : Nat) (peer : Peer), list[index]? = some peer → peer.conns = held index
  limit : ∀ (index : Nat) (peer : Peer), list[index]? = some peer → peer.maxConns ≠ 0 →
    peer.conns ≤ peer.maxConns

theorem visited_effective (now : Int) (tried : List Word) (index : Nat)
    (bounds : 0 ≤ peer.effectiveWeight ∧ peer.effectiveWeight ≤ peer.weight) :
    0 ≤ (visited now tried index peer).effectiveWeight ∧
      (visited now tried index peer).effectiveWeight ≤ (visited now tried index peer).weight := by
  by_cases skip : skipped now tried index peer = true
  · simpa [visited, skip] using bounds
  · simp only [visited, skip, Peer.bump]
    constructor <;> simp <;> split_ifs <;> omega

theorem visited_statics (now : Int) (tried : List Word) (index : Nat) (peer : Peer) :
    statics (visited now tried index peer) = statics peer := by
  simp only [visited]
  split_ifs <;> rfl

variable {tried : List Word} {list : ListId} {upstream : Upstream}

theorem list_inv_get {list : List Peer} {held : Nat → Nat} (inv : ListInv list held)
    (chosen : (ngxHttpUpstreamGetPeer now tried list).chosen = some index) :
    ListInv ((ngxHttpUpstreamGetPeer now tried list).peer.modify index Peer.acquire)
      (update held index (held index + 1)) := by
  obtain ⟨total, after⟩ := get_peer_at chosen
  obtain ⟨_, picked, foundPicked, open_, _⟩ := get_peer_some chosen
  -- every peer of the new list comes from the peer with its number
  have origin : ∀ (at_ : Nat) (peer : Peer),
      ((ngxHttpUpstreamGetPeer now tried list).peer.modify index Peer.acquire)[at_]? = some peer →
      ∃ before, list[at_]? = some before ∧
        peer.effectiveWeight = (visited now tried at_ before).effectiveWeight ∧
        peer.weight = before.weight ∧ peer.maxConns = before.maxConns ∧
        peer.conns = before.conns + if index = at_ then 1 else 0 := by
    intro at_ peer found
    rw [List.getElem?_modify, after] at found
    cases before : list[at_]? with
    | none => simp [before] at found
    | some value =>
      have kept := visited_statics now tried at_ value
      simp only [statics, Prod.mk.injEq] at kept
      by_cases same : index = at_
      · simp only [before, same, Option.map_some, if_true, Option.map_eq_map,
          Option.some.injEq] at found
        subst found
        simp [Peer.acquire, Peer.settle, kept, same]
      · simp only [before, same, Option.map_some, if_false, Option.map_eq_map,
          Option.some.injEq] at found
        subst found
        simp [kept, same]
  have kept := map_modify_of_same standing Peer.acquire (fun _ => rfl)
    (ngxHttpUpstreamGetPeer now tried list).peer index
  have weights : ((ngxHttpUpstreamGetPeer now tried list).peer.modify index Peer.acquire).map Peer.weight =
      list.map Peer.weight := by
    have same := congrArg (List.map Prod.fst) (get_peer_statics now tried list)
    rw [map_modify_of_same Peer.weight Peer.acquire (fun _ => rfl)]
    simp only [List.map_map] at same
    exact same
  constructor
  · have selected := get_peer_sum now tried list
    have before := inv.sum
    rw [current_weights_standing kept]
    omega
  · intro fits
    have effective := fun peer mem => (List.mem_iff_getElem?.mp mem).elim (inv.effective · peer)
    have fitted : Fits list := by
      unfold Fits totalWeight at fits ⊢
      rwa [weights, List.length_modify, get_peer_length] at fits
    exact (get_peer_balanced fitted (inv.balanced fitted) effective).of_standing kept
  · intro at_ peer found
    obtain ⟨before, foundBefore, effective, weight, _, _⟩ := origin at_ peer found
    have bounds := visited_effective now tried at_ (inv.effective at_ before foundBefore)
    have kept := visited_statics now tried at_ before
    simp only [statics, Prod.mk.injEq] at kept
    rw [effective, weight, ← kept.1]
    exact bounds
  · intro at_ peer found
    obtain ⟨before, foundBefore, _, _, _, conns⟩ := origin at_ peer found
    have counted := inv.conns at_ before foundBefore
    by_cases same : index = at_
    · subst same
      rw [conns, if_pos rfl, counted, update_self]
    · rw [conns, if_neg same, counted, update_of_ne (Ne.symm same)]
      rfl
  · intro at_ peer found limited
    obtain ⟨before, foundBefore, _, _, maxConns, conns⟩ := origin at_ peer found
    rw [maxConns] at limited ⊢
    rw [conns]
    by_cases same : index = at_
    · subst same
      have value : picked = before := Option.some.inj (foundPicked.symm.trans foundBefore)
      subst value
      simp only [skipped, Bool.or_eq_false_iff, Bool.and_eq_false_iff, bne_eq_false_iff_eq,
        decide_eq_false_iff_not] at open_
      rw [if_pos rfl]
      omega
    · have bound := inv.limit at_ before foundBefore limited
      rw [if_neg same]
      omega

theorem fail_effective (now : Int)
    (bounds : 0 ≤ peer.effectiveWeight ∧ peer.effectiveWeight ≤ peer.weight) :
    0 ≤ (peer.fail now).effectiveWeight ∧ (peer.fail now).effectiveWeight ≤ (peer.fail now).weight := by
  have weightNonneg : 0 ≤ peer.weight := bounds.1.trans bounds.2
  have share : 0 ≤ peer.weight / (peer.maxFails : Int) :=
    Int.ediv_nonneg weightNonneg (Int.natCast_nonneg _)
  simp only [Peer.fail]
  split_ifs <;> omega

theorem list_inv_free {list : List Peer} {held : Nat → Nat} (now : Int)
    (failed : Bool) (inv : ListInv list held) :
    ListInv (list.modify index fun peer => (if failed then peer.fail now else peer.pass).release)
      (update held index (held index - 1)) := by
  have origin : ∀ (at_ : Nat) (peer : Peer),
      (list.modify index fun peer =>
        (if failed then peer.fail now else peer.pass).release)[at_]? = some peer →
      ∃ before, list[at_]? = some before ∧
        peer = if index = at_ then (if failed then before.fail now else before.pass).release
          else before := by
    intro at_ peer found
    rw [List.getElem?_modify] at found
    cases before : list[at_]? with
    | none => simp [before] at found
    | some value =>
      rw [before] at found
      exact ⟨value, rfl, (Option.some.inj found).symm⟩
  have kept : (list.modify index fun peer =>
      (if failed then peer.fail now else peer.pass).release).map standing = list.map standing :=
    map_modify_of_same standing _ (fun peer => by cases failed <;> rfl) list index
  constructor
  · rw [current_weights_standing kept]
    exact inv.sum
  · intro fits
    unfold Fits at fits
    rw [total_weight_standing kept, List.length_modify] at fits
    exact (inv.balanced fits).of_standing kept
  · intro at_ peer found
    obtain ⟨before, foundBefore, rfl⟩ := origin at_ peer found
    have bounds := inv.effective at_ before foundBefore
    split_ifs
    · exact fail_effective now bounds
    · exact bounds
    · exact bounds
  · intro at_ peer found
    obtain ⟨before, foundBefore, rfl⟩ := origin at_ peer found
    have counted := inv.conns at_ before foundBefore
    by_cases same : index = at_
    · subst same
      rw [if_pos rfl, update_self, ← counted]
      cases failed <;> rfl
    · rw [if_neg same, update_of_ne (Ne.symm same), counted]
  · intro at_ peer found limited
    obtain ⟨before, foundBefore, rfl⟩ := origin at_ peer found
    have bound := inv.limit at_ before foundBefore
    split_ifs at limited ⊢
    · have less := bound limited
      simp only [Peer.release, Peer.fail]
      omega
    · have less := bound limited
      simp only [Peer.release, Peer.pass]
      omega
    · exact bound limited

/-- The requests that got peer `index` of `list` and have not freed it. -/
def holders {count : Nat} (state : State count) (list : ListId) (index : Nat) :
    Finset (Fin count) :=
  Finset.univ.filter fun client => (state.request client).holding = true ∧
    (state.request client).data.current = some (list, index)

theorem mem_holders : client ∈ holders state list index ↔ (state.request client).holding = true ∧
      (state.request client).data.current = some (list, index) := by
  simp [holders]

def held {count : Nat} (state : State count) (list : ListId) (index : Nat) : Nat :=
  (holders state list index).card

structure Inv {count : Nat} (state : State count) : Prop where
  multiple : ∀ list, (state.upstream.peers list).single = false
  lists : ∀ list, ListInv (state.upstream.peers list).peer (held state list)
  current : ∀ client, (state.request client).holding = true →
    ∃ index peer, (state.request client).data.current =
        some ((state.request client).data.peers, index) ∧
      (state.upstream.peers (state.request client).data.peers).peer[index]? = some peer

theorem peers_set_same (peers : List Peer) (some_ : (upstream.peers list).peer ≠ []) :
    (upstream.setPeer peers list).peers list = { upstream.peers list with peer := peers } := by
  cases list with
  | primary => rfl
  | backup =>
    cases backup : upstream.backup with
    | none => simp [Upstream.peers, backup] at some_
    | some value => simp [Upstream.peers, Upstream.setPeer, backup]

theorem peers_set_other {other : ListId} (peers : List Peer)
    (different : other ≠ list) : (upstream.setPeer peers list).peers other = upstream.peers other := by
  cases list <;> cases other <;> first | exact absurd rfl different | rfl

theorem inv_idle (inv : Inv state)
    (idle : (state.request client).holding = false) (data : PeerData) :
    Inv (state.set client state.upstream ⟨data, false⟩) := by
  have same : ∀ list, held (state.set client state.upstream ⟨data, false⟩) list =
      held state list := by
    intro list
    funext index
    unfold held
    congr 1
    ext other
    by_cases own : other = client
    · subst own
      simp [mem_holders, State.set, idle]
    · simp [mem_holders, State.set, update_of_ne own]
  refine ⟨inv.multiple, ?_, ?_⟩
  · intro list
    rw [same]
    exact inv.lists list
  · intro other holds
    by_cases own : other = client
    · subst own
      simp [State.set] at holds
    · simp only [State.set, update_of_ne own] at holds ⊢
      exact inv.current other holds

theorem choose_eq_get_peer {peers : Peers} (multiple : peers.single = false) :
    choose now peers tried = ngxHttpUpstreamGetPeer now tried peers.peer := by
  simp [choose, multiple]

theorem get_section_cases (now : Int) (upstream : Upstream) (data : PeerData)
    (multiple : (upstream.peers data.peers).single = false) :
    (∃ index tried, (ngxHttpUpstreamGetPeer now data.tried (upstream.peers data.peers).peer).chosen =
        some index ∧
      getSection now upstream data =
        ⟨.ok, upstream.setPeer ((ngxHttpUpstreamGetPeer now data.tried
            (upstream.peers data.peers).peer).peer.modify index Peer.acquire) data.peers,
          { data with current := some (data.peers, index), tried := tried }⟩) ∨
      ∃ outcome after, outcome ≠ .ok ∧ getSection now upstream data = ⟨outcome, upstream, after⟩ := by
  simp only [getSection, choose_eq_get_peer multiple]
  cases chosen : (ngxHttpUpstreamGetPeer now data.tried (upstream.peers data.peers).peer).chosen with
  | some index => exact .inl ⟨index, _, rfl, rfl⟩
  | none =>
    cases upstream.next data.peers with
    | none => exact .inr ⟨.busy, _, by decide, rfl⟩
    | some backup => exact .inr ⟨.retry, _, by decide, rfl⟩

section

variable {count : Nat} {state : State count} {client : Fin count}

theorem held_acquire
    (idle : (state.request client).holding = false) (got : data.current = some (list, index))
    (other : ListId) : held (state.set client upstream ⟨data, true⟩) other =
      if other = list then update (held state list) index (held state list index + 1)
      else held state other := by
  funext at_
  have outside : client ∉ holders state other at_ := by simp [mem_holders, idle]
  by_cases target : other = list ∧ at_ = index
  · obtain ⟨rfl, rfl⟩ := target
    have grown : holders (state.set client upstream ⟨data, true⟩) other at_ =
        insert client (holders state other at_) := by
      ext process
      by_cases own : process = client
      · subst own
        simp [mem_holders, State.set, got]
      · simp [mem_holders, State.set, own]
    simp [held, grown, Finset.card_insert_of_notMem outside]
  · have same : holders (state.set client upstream ⟨data, true⟩) other at_ =
        holders state other at_ := by
      ext process
      by_cases own : process = client
      · subst own
        simp only [mem_holders, State.set, update_self, got, idle]
        simp only [Option.some.injEq, Prod.mk.injEq, true_and, Bool.false_eq_true, false_and,
          iff_false]
        rintro ⟨sameList, sameIndex⟩
        exact target ⟨sameList.symm, sameIndex.symm⟩
      · simp [mem_holders, State.set, update_of_ne own]
    by_cases sameList : other = list
    · have different : at_ ≠ index := fun equal => target ⟨sameList, equal⟩
      subst sameList
      simp [held, same, update_of_ne different]
    · simp [held, same, sameList]

theorem held_release (holds : (state.request client).holding = true)
    (got : (state.request client).data.current = some (list, index)) (other : ListId) :
    held (state.set client upstream ⟨data, false⟩) other =
      if other = list then update (held state list) index (held state list index - 1)
      else held state other := by
  funext at_
  have shrunk : holders (state.set client upstream ⟨data, false⟩) other at_ =
      (holders state other at_).erase client := by
    ext process
    by_cases own : process = client
    · subst own
      simp [mem_holders, State.set]
    · simp [mem_holders, State.set, own]
  by_cases target : other = list ∧ at_ = index
  · obtain ⟨rfl, rfl⟩ := target
    have inside : client ∈ holders state other at_ := mem_holders.mpr ⟨holds, got⟩
    simp [held, shrunk, Finset.card_erase_of_mem inside]
  · have outside : client ∉ holders state other at_ := by
      rw [mem_holders, got]
      rintro ⟨_, same⟩
      cases same
      exact target ⟨rfl, rfl⟩
    have same : held (state.set client upstream ⟨data, false⟩) other at_ = held state other at_ := by
      simp [held, shrunk, Finset.erase_eq_of_notMem outside]
    by_cases sameList : other = list
    · have different : at_ ≠ index := fun equal => target ⟨sameList, equal⟩
      subst sameList
      simp [same, update_of_ne different]
    · simp [same, sameList]

theorem inv_replace {request : Request} {peers : List Peer} {index amount : Nat} (inv : Inv state)
    (some_ : (state.upstream.peers list).peer ≠ [])
    (size : peers.length = (state.upstream.peers list).peer.length)
    (listed : ListInv peers (update (held state list) index amount))
    (counts : ∀ other, held (state.set client (state.upstream.setPeer peers list) request) other =
      if other = list then update (held state list) index amount else held state other)
    (current : request.holding = true → ∃ index, request.data.peers = list ∧
      request.data.current = some (list, index) ∧ index < peers.length) :
    Inv (state.set client (state.upstream.setPeer peers list) request) := by
  have after : ∀ other, (state.upstream.setPeer peers list).peers other =
      if other = list then { state.upstream.peers list with peer := peers }
      else state.upstream.peers other := by
    intro other
    by_cases same : other = list
    · subst same
      rw [if_pos rfl, peers_set_same peers some_]
    · rw [if_neg same, peers_set_other peers same]
  refine ⟨?_, ?_, ?_⟩
  · intro other
    simp only [State.set, after]
    split_ifs
    · exact inv.multiple list
    · exact inv.multiple other
  · intro other
    rw [counts]
    simp only [State.set, after]
    split_ifs
    · exact listed
    · exact inv.lists other
  · intro other holds
    by_cases own : other = client
    · subst own
      simp only [State.set, update_self] at holds ⊢
      obtain ⟨at_, sameList, got, bound⟩ := current holds
      refine ⟨at_, peers[at_], ?_, ?_⟩
      · rw [sameList, got]
      · rw [sameList, after, if_pos rfl]
        exact List.getElem?_eq_getElem bound
    · simp only [State.set, update_of_ne own] at holds ⊢
      obtain ⟨at_, peer, got, found⟩ := inv.current other holds
      have bound := (List.getElem?_eq_some_iff.mp found).1
      rw [after]
      split_ifs with same
      · rw [same] at bound
        have inside : at_ < peers.length := by omega
        exact ⟨at_, peers[at_], got, List.getElem?_eq_getElem inside⟩
      · exact ⟨at_, peer, got, found⟩

end

theorem inv_step {event : Event count} (inv : Inv state)
    (enabled : Enabled state event) : Inv (step state event) := by
  cases event with
  | start client => exact inv_idle inv enabled _
  | get client now =>
    have idle : (state.request client).holding = false := enabled
    simp only [step]
    rcases get_section_cases now state.upstream (state.request client).data (inv.multiple _) with
      ⟨index, tried, chosen, done⟩ | ⟨outcome, after, failed, done⟩
    · obtain ⟨_, _, found, _⟩ := get_peer_some chosen
      have bound := (List.getElem?_eq_some_iff.mp found).1
      rw [done]
      apply inv_replace inv (List.ne_nil_of_length_pos (by omega))
        (by rw [List.length_modify, get_peer_length]) (list_inv_get (inv.lists _) chosen)
      · exact held_acquire idle rfl
      · intro _
        refine ⟨index, rfl, rfl, ?_⟩
        rw [List.length_modify, get_peer_length]
        exact bound
    · rw [done]
      simpa [failed] using inv_idle inv idle after
  | free client now failed =>
    have holds : (state.request client).holding = true := enabled
    obtain ⟨index, peer, got, found⟩ := inv.current client holds
    have bound := (List.getElem?_eq_some_iff.mp found).1
    simp only [step, ngxHttpUpstreamFreeRoundRobinPeer, got, inv.multiple, Bool.false_eq_true,
      if_false]
    apply inv_replace inv (List.ne_nil_of_length_pos (by omega)) (List.length_modify ..)
      (list_inv_free now failed (inv.lists _))
    · exact held_release holds got
    · simp

/-- A peer as `ngx_http_upstream_init_round_robin` leaves it. -/
structure Fresh (peer : Peer) : Prop where
  current : peer.currentWeight = 0
  effective : peer.effectiveWeight = peer.weight
  positive : 1 ≤ peer.weight
  conns : peer.conns = 0

theorem list_inv_fresh {list : List Peer} {held : Nat → Nat} (fresh : ∀ peer ∈ list, Fresh peer)
    (none : ∀ index, held index = 0) : ListInv list held := by
  have at_ : ∀ (index : Nat) (peer : Peer), list[index]? = some peer → Fresh peer :=
    fun index peer found => fresh peer (List.mem_of_getElem? found)
  have start := balanced_start fun peer mem =>
    ⟨(fresh peer mem).current, zero_le_one.trans (fresh peer mem).positive⟩
  constructor
  · simp [start.sum]
  · exact fun _ => start
  · intro index peer found
    have new := at_ index peer found
    have positive := new.positive
    rw [new.effective]
    omega
  · intro index peer found
    rw [none, (at_ index peer found).conns]
  · intro index peer found _
    rw [(at_ index peer found).conns]
    exact Nat.zero_le _

theorem peers_of_fresh (servers : List Server) (backup : Bool) :
    ∀ peer ∈ peersOf servers backup, Fresh peer := by
  intro peer mem
  obtain ⟨server, _, copies⟩ := List.mem_flatMap.mp mem
  rw [List.eq_of_mem_replicate copies]
  exact ⟨rfl, rfl, server.weight_pos, rfl⟩

theorem configured_fresh (configured : Configured upstream) (list : ListId) :
    (upstream.peers list).single = false ∧ ∀ peer ∈ (upstream.peers list).peer, Fresh peer := by
  obtain ⟨multiple, ⟨servers, built⟩ | ⟨naddrs, rfl⟩⟩ := configured
  · simp only [ngxHttpUpstreamInitRoundRobin] at built
    split_ifs at built <;> cases built <;> cases list
    · exact ⟨multiple, peers_of_fresh servers false⟩
    · exact ⟨rfl, by simp [Upstream.peers]⟩
    · exact ⟨rfl, peers_of_fresh servers false⟩
    · exact ⟨rfl, peers_of_fresh servers true⟩
  · cases list with
    | primary =>
      refine ⟨multiple, ?_⟩
      intro peer mem
      rw [List.eq_of_mem_replicate mem]
      exact ⟨rfl, rfl, le_refl _, rfl⟩
    | backup => exact ⟨rfl, by simp [Upstream.peers, implicitUpstream]⟩

theorem inv_initial (state : State count) (first : (balancer count).initial state) :
    Inv state := by
  obtain ⟨configured, fresh⟩ := first
  have none : ∀ list index, held state list index = 0 := by
    simp [held, holders, fresh]
  refine ⟨fun list => (configured_fresh configured list).1, ?_, ?_⟩
  · intro list
    exact list_inv_fresh (configured_fresh configured list).2 (none list)
  · intro client holds
    simp [fresh] at holds

theorem reachable_inv (reached : Reachable (balancer count) state) : Inv state := by
  apply reachable_invariant inv_initial ?_ reached
  intro before event after inv moved
  rw [moved.2]
  exact inv_step inv moved.1

/-- Over every interleaving, the current weights of a list add up to zero in a word, and
without wrapping to zero itself while the number of its peers times the sum of their weights
fits in an `ngx_int_t`. The effective weights stay between zero and the configured ones, and
the connection counters count the holders, within `max_conns` where it is set. -/
theorem round_robin_state_invariant {count : Nat} {state : State count}
    (reached : Reachable (balancer count) state) (list : ListId) :
    (2 ^ 64 : Int) ∣ currentWeights (state.upstream.peers list).peer ∧
      (Fits (state.upstream.peers list).peer → currentWeights (state.upstream.peers list).peer = 0) ∧
      ∀ (index : Nat) (peer : Peer), (state.upstream.peers list).peer[index]? = some peer →
        0 ≤ peer.effectiveWeight ∧ peer.effectiveWeight ≤ peer.weight ∧
          peer.conns = (holders state list index).card ∧
          (0 < peer.maxConns → peer.conns ≤ peer.maxConns) := by
  have inv := (reachable_inv reached).lists list
  refine ⟨inv.sum, fun fits => (inv.balanced fits).sum, ?_⟩
  intro index peer found
  obtain ⟨nonneg, bounded⟩ := inv.effective index peer found
  exact ⟨nonneg, bounded, inv.conns index peer found,
    fun limited => inv.limit index peer found (by omega)⟩

/-- Three servers of the largest weight that `ngx_http_upstream_server` takes. -/
def heaviestServers : List Server :=
  List.replicate 3 ⟨1, 2 ^ 63 - 1, 0, 1, 10, false, false, by decide, by decide⟩

def heaviestStart : State 1 where
  upstream := ⟨⟨false, peersOf heaviestServers false⟩, none⟩
  request _ := ⟨ngxHttpUpstreamInitRoundRobinPeer ⟨⟨false, peersOf heaviestServers false⟩, none⟩, false⟩

/-- The sums of the loop wrap: the first selection leaves 2, 2^63 - 1 and 2^63 - 1. -/
theorem heaviest_sum_not_zero : ∃ state : State 1, Reachable (balancer 1) state ∧
    currentWeights (state.upstream.peers .primary).peer ≠ 0 := by
  have configured : Configured heaviestStart.upstream := ⟨rfl, .inl ⟨heaviestServers, rfl⟩⟩
  have start : Reachable (balancer 1) heaviestStart := reachable_initial ⟨configured, fun _ => rfl⟩
  exact ⟨_, reachable_next start (show (balancer 1).next _ (.get 0 100) _ from ⟨rfl, rfl⟩), by decide⟩

/-- A weight-2 server limited to one connection, a weight-1 server and a backup. -/
def exampleUpstream : Upstream where
  primary := ⟨false, [Server.toPeer ⟨1, 2, 1, 1, 10, false, false, by decide, by decide⟩,
    Server.toPeer ⟨1, 1, 0, 1, 10, false, false, by decide, by decide⟩]⟩
  backup := some ⟨false, [Server.toPeer ⟨1, 1, 0, 1, 10, false, true, by decide, by decide⟩]⟩

def exampleStart : State 2 where
  upstream := exampleUpstream
  request _ := ⟨ngxHttpUpstreamInitRoundRobinPeer exampleUpstream, false⟩

def exampleHeld : State 2 :=
  step (step exampleStart (.get 0 100)) (.get 1 100)

theorem example_held_reachable : Reachable (balancer 2) exampleHeld := by
  have configured : Configured exampleUpstream :=
    ⟨rfl, .inl ⟨[⟨1, 2, 1, 1, 10, false, false, by decide, by decide⟩,
      ⟨1, 1, 0, 1, 10, false, false, by decide, by decide⟩,
      ⟨1, 1, 0, 1, 10, false, true, by decide, by decide⟩], rfl⟩⟩
  have start : Reachable (balancer 2) exampleStart := reachable_initial ⟨configured, fun _ => rfl⟩
  have first : Reachable (balancer 2) (step exampleStart (.get 0 100)) :=
    reachable_next start (show (balancer 2).next _ (.get 0 100) _ from ⟨rfl, rfl⟩)
  exact reachable_next first (show (balancer 2).next _ (.get 1 100) _ from ⟨rfl, rfl⟩)

theorem round_robin_state_two_clients : (exampleHeld.upstream.peers .primary).peer.map Peer.conns = [1, 1] ∧
      (exampleHeld.upstream.peers .primary).peer.map Peer.currentWeight = [-1, 1] ∧
      currentWeights (exampleHeld.upstream.peers .primary).peer = 0 :=
  ⟨by decide, by decide, (round_robin_state_invariant example_held_reachable .primary).2.1 (by
    unfold Fits
    decide)⟩

end ServerCore.NginxRoundRobinInvariant
