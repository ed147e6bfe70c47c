import ServerCore.NginxHttpUpstreamHashRing
import ServerCore.NginxRoundRobinSelection

/-!
# The server of a key

With every peer eligible the first point that is looked at already has a peer,
so a request goes to the server of the point that follows its hash.
-/

namespace ServerCore.NginxHttpUpstreamHashChoice

open SuccessorCycle NginxUpstreamRoundRobin NginxRoundRobinSelection NginxHttpUpstreamHash
open NginxHttpUpstreamHashRing List

variable {peers : List ChashPeer}
variable {one two : Bytes}

theorem strncmp_self (text : Bytes) : ngxStrncmp text.length text text = true := by
  induction text with
  | nil => rfl
  | cons c text ih => simp [ngxStrncmp, ih]

theorem same_server_self (server : Bytes) : sameServer server server = true := by
  simp [sameServer, strncmp_self]

theorem strncmp_eq (length : one.length = two.length) (text : 0 ∉ two)
    (same : ngxStrncmp two.length one two = true) : one = two := by
  induction two generalizing one with
  | nil => exact length_eq_zero_iff.mp length
  | cons d two ih =>
    cases one with
    | nil => simp at length
    | cons c one =>
      simp only [mem_cons, not_or] at text
      simp only [length_cons, ngxStrncmp, Bool.and_eq_true, Bool.or_eq_true,
        decide_eq_true_eq] at same
      obtain ⟨equal, zero | rest⟩ := same
      · rw [equal] at zero
        exact absurd zero.symm text.1
      · rw [equal, ih (by simpa using length) text.2 rest]

theorem same_server_eq (text : 0 ∉ two) (same : sameServer one two = true) :
    one = two := by
  simp only [sameServer, Bool.and_eq_true, decide_eq_true_eq] at same
  exact strncmp_eq same.1 text same.2

section

variable {now : Int} {tried : List Word} {server : Bytes} {index : Nat} {list : List ChashPeer}
  {best : Option Best} {total : Int}

theorem chash_scan_choice {choice : Best}
    (chosen : (chashScan now tried server index list best total).best = some choice) :
    best = some choice ∨ ∃ offset peer, list[offset]? = some peer ∧ choice.p = index + offset ∧
      chashSkipped now tried server choice.p peer = false := by
  induction list generalizing index best total with
  | nil => exact .inl chosen
  | cons peer rest ih =>
    have later : (∃ offset other, rest[offset]? = some other ∧ choice.p = index + 1 + offset ∧
          chashSkipped now tried server choice.p other = false) →
        ∃ offset other, (peer :: rest)[offset]? = some other ∧ choice.p = index + offset ∧
          chashSkipped now tried server choice.p other = false := by
      intro found
      obtain ⟨offset, other, place, number, taken⟩ := found
      exact ⟨offset + 1, other, by simpa using place, by omega, taken⟩
    by_cases skip : chashSkipped now tried server index peer = true
    · simp only [chashScan, skip, if_true] at chosen
      cases ih chosen with
      | inl before => exact .inl before
      | inr found => exact .inr (later found)
    · simp only [chashScan, if_neg skip] at chosen
      have own : some ⟨index, peer.peer.bump.currentWeight⟩ = some choice →
          ∃ offset other, (peer :: rest)[offset]? = some other ∧ choice.p = index + offset ∧
            chashSkipped now tried server choice.p other = false := by
        intro same
        cases same
        exact ⟨0, peer, rfl, rfl, by simpa using skip⟩
      cases ih chosen with
      | inr found => exact .inr (later found)
      | inl before =>
        cases best with
        | none => exact .inr (own before)
        | some first =>
          simp only [Best.improve] at before
          split_ifs at before
          · exact .inr (own before)
          · exact .inl before

theorem chash_scan_some (found : best ≠ none ∨ ∃ (offset : Nat) (peer : ChashPeer),
    list[offset]? = some peer ∧
      chashSkipped now tried server (index + offset) peer = false) :
    (chashScan now tried server index list best total).best ≠ none := by
  induction list generalizing index best total with
  | nil =>
    cases found with
    | inl before => exact before
    | inr found =>
      obtain ⟨offset, peer, place, -⟩ := found
      simp at place
  | cons peer rest ih =>
    by_cases skip : chashSkipped now tried server index peer = true
    · simp only [chashScan, skip, if_true]
      apply ih
      cases found with
      | inl before => exact .inl before
      | inr found =>
        obtain ⟨offset, other, place, taken⟩ := found
        cases offset with
        | zero =>
          rw [getElem?_cons_zero, Option.some.injEq] at place
          rw [← place, add_zero, skip] at taken
          cases taken
        | succ offset =>
          rw [add_comm offset 1, ← add_assoc] at taken
          exact .inr ⟨offset, other, by simpa using place, taken⟩
    · simp only [chashScan, if_neg skip]
      exact ih (.inl (improve_is_some best index peer.peer.bump))

end

def Eligible (now : Int) (tried : List Word) (peers : List ChashPeer) : Prop :=
  ∀ (index : Nat) (peer : ChashPeer), peers[index]? = some peer →
    skipped now tried index peer.peer = false

/-- On the ring of `peers`, a key of the given hash goes to a peer of `server`,
whatever the weights and counters have become. -/
def Chooses (update : Update) (peers : List ChashPeer) (key : Hash) (server : Bytes) : Prop :=
  ∃ ring, ngxHttpUpstreamInitChash update peers = some ring ∧
    ∀ (now : Int) (tried : List Word) (current : List ChashPeer),
      current.map ChashPeer.server = peers.map ChashPeer.server → Eligible now tried current →
      ∃ choice index peer,
        ngxHttpUpstreamGetChashPeer now ring (ngxHttpUpstreamInitChashPeer ring tried key) current =
          some choice ∧
        choice.chosen = some index ∧ current[index]? = some peer ∧
        sameServer peer.server server = true ∧ (0 ∉ server → peer.server = server)

def OwnHashes (points : List ChashPoint) : Prop :=
  ∀ one ∈ points, ∀ two ∈ points, one.hash = two.hash → one.server = two.server

variable {server : Bytes} {update : Update} {point : ChashPoint}

theorem get_first {now : Int} {ring : ChashPoints} {data : ChashData} {current : List ChashPeer}
    (isServer : (ring.point (data.hash.toNat % ring.number)).server = server)
    (eligible : Eligible now data.tried current) (mem : server ∈ current.map ChashPeer.server) :
    ∃ choice index peer, ngxHttpUpstreamGetChashPeer now ring data current = some choice ∧
      choice.chosen = some index ∧ current[index]? = some peer ∧ sameServer peer.server server = true := by
  obtain ⟨peer, peerIn, named⟩ := mem_map.mp mem
  obtain ⟨offset, place⟩ := mem_iff_getElem?.mp peerIn
  have open_ : chashSkipped now data.tried server (0 + offset) peer = false := by
    rw [zero_add, chashSkipped, eligible offset peer place, named, same_server_self]
    rfl
  have found : (chashScan now data.tried server 0 current none 0).best ≠ none :=
    chash_scan_some (.inr ⟨offset, peer, place, open_⟩)
  obtain ⟨best, isBest⟩ := Option.ne_none_iff_exists'.mp found
  cases chash_scan_choice isBest with
  | inl before => exact absurd before (by simp)
  | inr chosen =>
    obtain ⟨position, other, there, number, taken⟩ := chosen
    rw [zero_add] at number
    rw [chashSkipped, Bool.or_eq_false_iff] at taken
    have got : ∃ choice, ngxHttpUpstreamGetChashPeer now ring data current = some choice ∧
        choice.chosen = some best.p := by
      rw [ngxHttpUpstreamGetChashPeer, getFrom]
      simp only [isServer, isBest]
      exact ⟨_, rfl, rfl⟩
    obtain ⟨choice, isChoice, isChosen⟩ := got
    exact ⟨choice, best.p, other, isChoice, isChosen, by rw [number, there], by simpa using taken.2⟩

theorem chain_point_server {count : Nat} {prevHash : Hash}
    (mem : point ∈ chainPoints update server count prevHash) : point.server = server := by
  induction count generalizing prevHash with
  | zero => simp [chainPoints] at mem
  | succ count ih =>
    cases mem with
    | head => rfl
    | tail _ later => exact ih later

theorem ring_point_server (mem : point ∈ ringPoints update peers) :
    ∃ peer ∈ peers, point ∈ peerPoints update peer ∧ point.server = peer.server := by
  obtain ⟨peer, peerIn, own⟩ := mem_flatMap.mp mem
  exact ⟨peer, peerIn, own, chain_point_server own⟩

theorem chooses_successor {key : Hash} {owner : ChashPoint}
    (own : OwnHashes (ringPoints update peers)) (mem : owner ∈ ringPoints update peers)
    (succeeds : Succeeds (hashes (ringPoints update peers)) key.toNat owner.hash.toNat) :
    Chooses update peers key owner.server := by
  obtain ⟨ring, isInit, isRing⟩ := init_ring update (ne_nil_of_mem mem)
  refine ⟨ring, isInit, ?_⟩
  intro now tried current names eligible
  obtain ⟨point, pointIn, start, next⟩ := start_point isRing tried key
  have sameHash : point.hash = owner.hash := BitVec.eq_of_toNat_eq (succeeds_unique next succeeds)
  have isServer := own point pointIn owner mem sameHash
  obtain ⟨peer, peerIn, -, named⟩ := ring_point_server mem
  have listed : owner.server ∈ current.map ChashPeer.server := by
    rw [names, named]
    exact mem_map_of_mem peerIn
  obtain ⟨choice, index, chosen, got, isChosen, place, same⟩ :=
    get_first ((congrArg ChashPoint.server start).trans isServer) eligible listed
  exact ⟨choice, index, chosen, got, isChosen, place, same, fun text => same_server_eq text same⟩

theorem ring_points_some {update : Update} (some_ : peers ≠ [])
    (weights : ∀ peer ∈ peers, 1 ≤ peer.peer.weight) : ringPoints update peers ≠ [] := by
  obtain ⟨peer, rest, rfl⟩ := exists_cons_of_ne_nil some_
  have weight := weights peer mem_cons_self
  obtain ⟨count, isCount⟩ : ∃ count, (peer.peer.weight * 160).toNat = count + 1 :=
    ⟨(peer.peer.weight * 160).toNat - 1, by omega⟩
  rw [ringPoints, flatMap_cons, peerPoints, isCount]
  simp [chainPoints]

/-- A key goes to the server of the first point that is not below its hash, or of
the least point; and removing any other server leaves it there. -/
theorem consistent_hash_stable (update : Update) (peers : List ChashPeer) (some_ : peers ≠ [])
    (weights : ∀ peer ∈ peers, 1 ≤ peer.peer.weight) (own : OwnHashes (ringPoints update peers))
    (key : Hash) : ∃ owner ∈ ringPoints update peers,
      Succeeds (hashes (ringPoints update peers)) key.toNat owner.hash.toNat ∧
      Chooses update peers key owner.server ∧ ∀ other, other ≠ owner.server →
        Chooses update (peers.filter fun peer => peer.server ≠ other) key owner.server := by
  obtain ⟨ring, -, isRing⟩ := init_ring update (ring_points_some some_ weights)
  obtain ⟨owner, mem, -, succeeds⟩ := start_point isRing [] key
  refine ⟨owner, mem, succeeds, chooses_successor own mem succeeds, ?_⟩
  intro other differs
  have subset : ∀ point ∈ ringPoints update (peers.filter fun peer => peer.server ≠ other),
      point ∈ ringPoints update peers := by
    intro point inFewer
    obtain ⟨peer, peerIn, own, -⟩ := ring_point_server inFewer
    exact mem_flatMap.mpr ⟨peer, mem_of_mem_filter peerIn, own⟩
  have stays : owner ∈ ringPoints update (peers.filter fun peer => peer.server ≠ other) := by
    obtain ⟨peer, peerIn, own, named⟩ := ring_point_server mem
    refine mem_flatMap.mpr ⟨peer, mem_filter.mpr ⟨peerIn, ?_⟩, own⟩
    rw [← named]
    simpa using differs.symm
  apply chooses_successor _ stays
  · apply succeeds_subset succeeds
    · rintro hash ⟨point, inFewer, rfl⟩
      exact ⟨point, subset point inFewer, rfl⟩
    · exact ⟨owner, stays, rfl⟩
  · intro one oneIn two twoIn same
    exact own one (subset one oneIn) two (subset two twoIn) same

def paritySum (crc : Hash) (bytes : Bytes) : Hash :=
  if bytes.length = 4 then
    crc + 2 * bytes.foldl (fun (sum : Hash) byte => 257 * sum + byte.toBitVec.setWidth 32) 0
  else crc + bytes.foldl (fun (sum : Hash) byte => sum + byte.toBitVec.setWidth 32) 0

def plainPeer (server : Bytes) : ChashPeer where
  server := server
  peer :=
    { currentWeight := 0, effectiveWeight := 1, weight := 1, conns := 0, maxConns := 0, fails := 0,
      accessed := 0, checked := 0, maxFails := 1, failTimeout := 10, down := false }

def twoServers : List ChashPeer := [plainPeer "a".toUTF8.toList, plainPeer "b".toUTF8.toList]

set_option maxRecDepth 100000 in
theorem two_servers_parity : ∀ point ∈ ringPoints paritySum twoServers,
    point.hash.getLsbD 0 = decide (point.server = "a".toUTF8.toList) ∧
      (point.server = "a".toUTF8.toList ∨ point.server = "b".toUTF8.toList) := by
  with_unfolding_all decide

theorem consistent_hash_of_two_servers :
    ∃ owner ∈ ringPoints paritySum twoServers, Chooses paritySum twoServers 7 owner.server ∧
      ∀ other, other ≠ owner.server →
        Chooses paritySum (twoServers.filter fun peer => peer.server ≠ other) 7 owner.server := by
  have weights : ∀ peer ∈ twoServers, 1 ≤ peer.peer.weight := by decide
  have own : OwnHashes (ringPoints paritySum twoServers) := by
    intro one oneIn two twoIn same
    obtain ⟨oneBit, oneName⟩ := two_servers_parity one oneIn
    obtain ⟨twoBit, twoName⟩ := two_servers_parity two twoIn
    rw [same, twoBit, decide_eq_decide] at oneBit
    rcases oneName with isA | isB
    · rw [isA, oneBit.mpr isA]
    · rcases twoName with isA | isB'
      · rw [isA, oneBit.mp isA]
      · rw [isB, isB']
  obtain ⟨owner, mem, -, chooses, stable⟩ :=
    consistent_hash_stable paritySum twoServers (cons_ne_nil _ _) weights own 7
  exact ⟨owner, mem, chooses, stable⟩

end ServerCore.NginxHttpUpstreamHashChoice
