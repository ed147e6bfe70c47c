import ServerCore.NginxRoundRobinCredits
import Mathlib.Algebra.BigOperators.Fin

/-!
# Smooth weighted round robin is proportional

While every peer is eligible and no effective weight was lowered, the balancer
is a greedy credit scheduler: the current weights are the credits.
-/

namespace ServerCore.NginxRoundRobinFairness

open NginxUpstreamRoundRobin NginxRoundRobinSelection NginxRoundRobinCredits List

structure Eligible (now : Int) (peer : Peer) : Prop where
  up : peer.down = false
  live : peer.maxFails = 0 ∨ peer.fails < peer.maxFails ∨ peer.failTimeout < now - peer.checked
  room : peer.maxConns = 0 ∨ peer.conns < peer.maxConns

def freshTried (words : Nat) : List Word := List.replicate words 0

theorem fresh_not_tried (words index : Nat) : isTried (freshTried words) index = false := by
  have zero : (freshTried words).getD (index / wordBits) 0 = 0 := by
    simp [freshTried, getD_eq_getElem?_getD, getElem?_replicate]
    split_ifs <;> rfl
  simp only [isTried, zero]
  simp

variable {now : Int} {tried : List Word} {list : List Peer}

theorem eligible_not_skipped {peer : Peer} (eligible : Eligible now peer)
    (words index : Nat) : skipped now (freshTried words) index peer = false := by
  have full : ¬ (peer.maxConns ≠ 0 ∧ peer.conns ≥ peer.maxConns) := by
    have room := eligible.room
    omega
  have failed : ¬ (peer.maxFails ≠ 0 ∧ peer.fails ≥ peer.maxFails ∧
      now - peer.checked ≤ peer.failTimeout) := by
    have live := eligible.live
    omega
  simp only [skipped, fresh_not_tried, eligible.up]
  simp only [Bool.false_or, Bool.or_eq_false_iff, Bool.and_eq_false_iff, bne_eq_false_iff_eq,
    decide_eq_false_iff_not]
  omega

def weights (peer : Peer) : Int × Int × Int :=
  (peer.currentWeight, peer.effectiveWeight, peer.weight)

/-- Consecutive selections, each for a request with a fresh bitmap, with every
peer eligible at each of them. `state round` is the list before call `round`;
connections, failures, checks and the `down` marks may change in between. -/
structure EligibleRun where
  state : Nat → List Peer
  now : Nat → Int
  words : Nat → Nat
  nonempty : state 0 ≠ []
  start : ∀ peer ∈ state 0,
    1 ≤ peer.weight ∧ peer.currentWeight = 0 ∧ peer.effectiveWeight = peer.weight
  eligible : ∀ round, ∀ peer ∈ state round, Eligible (now round) peer
  carried : ∀ round, (state (round + 1)).map weights =
    (ngxHttpUpstreamGetPeer (now round) (freshTried (words round)) (state round)).peer.map weights

theorem get_peer_chooses
    (nonempty : list ≠ []) (open_ : ∀ peer ∈ list, ∀ at_, skipped now tried at_ peer = false) :
    ∃ index, index < list.length ∧ (ngxHttpUpstreamGetPeer now tried list).chosen = some index := by
  cases chosen : (ngxHttpUpstreamGetPeer now tried list).chosen with
  | some index =>
    obtain ⟨_, _, found, _⟩ := get_peer_some chosen
    exact ⟨index, (List.getElem?_eq_some_iff.mp found).1, rfl⟩
  | none =>
    -- a list the loop leaves as it was has only skipped peers
    obtain ⟨first, rest, rfl⟩ := exists_cons_of_ne_nil nonempty
    unfold ngxHttpUpstreamGetPeer at chosen
    cases best : (scan now tried 0 (first :: rest) none 0).best with
    | some choice => simp [best] at chosen
    | none =>
      simp only [scan, open_ first mem_cons_self 0, Bool.false_eq_true, if_false] at best
      exact absurd (scan_none best).1 (improve_is_some none 0 first.bump)

theorem get_peer_settled (settled : ∀ peer ∈ list, peer.effectiveWeight = peer.weight) :
    ((ngxHttpUpstreamGetPeer now tried list).peer.map weights).map Prod.snd =
      (list.map weights).map Prod.snd := by
  have bumped : ∀ at_, ∀ peer ∈ list, (weights (visited now tried at_ peer)).2 = (weights peer).2 := by
    intro at_ peer mem
    have same := settled peer mem
    unfold visited
    split_ifs <;> simp [weights, Peer.bump, same]
  apply ext_getElem?
  intro at_
  cases chosen : (ngxHttpUpstreamGetPeer now tried list).chosen with
  | none => rw [get_peer_none chosen]
  | some index =>
    obtain ⟨total, after⟩ := get_peer_at chosen
    simp only [getElem?_map, after]
    cases found : list[at_]? with
    | none => rfl
    | some peer =>
      have same := bumped at_ peer (mem_of_getElem? found)
      by_cases picked : index = at_
      · simpa [picked, weights, Peer.settle] using same
      · simpa [picked] using same

theorem open_earned (open_ : ∀ peer ∈ list, ∀ at_, skipped now tried at_ peer = false) (at_ : Nat) :
    earned now tried list 0 at_ = list[at_]?.elim 0 Peer.effectiveWeight := by
  unfold earned
  cases found : list[at_]? with
  | none => rfl
  | some peer => simp [open_ peer (mem_of_getElem? found)]

namespace EligibleRun

variable (run : EligibleRun)

def selection (round : Nat) : Selection :=
  ngxHttpUpstreamGetPeer (run.now round) (freshTried (run.words round)) (run.state round)

def number : Nat := (run.state 0).length

def totalWeight : Int := ((run.state 0).map Peer.weight).sum

theorem open_ (round : Nat) : ∀ peer ∈ run.state round, ∀ at_,
    skipped (run.now round) (freshTried (run.words round)) at_ peer = false :=
  fun peer mem at_ => eligible_not_skipped (run.eligible round peer mem) _ at_

theorem settled_iff {list : List Peer} : (∀ peer ∈ list, peer.effectiveWeight = peer.weight) ↔
    ∀ pair ∈ (list.map weights).map Prod.snd, pair.1 = pair.2 := by
  simp [weights]

section

variable (round : Nat)
include round

theorem static : (run.state round).map Peer.weight = (run.state 0).map Peer.weight ∧
      ∀ peer ∈ run.state round, peer.effectiveWeight = peer.weight := by
  have kept : ((run.state round).map weights).map Prod.snd = ((run.state 0).map weights).map Prod.snd := by
    induction round with
    | zero => rfl
    | succ round ih =>
      have settled : ∀ peer ∈ run.state round, peer.effectiveWeight = peer.weight := by
        rw [settled_iff, ih, ← settled_iff]
        exact fun peer mem => (run.start peer mem).2.2
      rw [run.carried, get_peer_settled settled, ih]
  constructor
  · have same := congrArg (List.map Prod.snd) kept
    simp only [map_map] at same
    exact same
  · rw [settled_iff, kept, ← settled_iff]
    exact fun peer mem => (run.start peer mem).2.2

theorem length_eq : (run.state round).length = run.number := by
  have sizes := congrArg List.length (run.static round).1
  simpa [number] using sizes

theorem state_nonempty : run.state round ≠ [] := by
  intro empty
  have size := run.length_eq round
  rw [empty] at size
  exact run.nonempty (eq_nil_of_length_eq_zero size.symm)

theorem picks_one :
    ∃ index : Fin run.number, (run.selection round).chosen = some index.val := by
  obtain ⟨index, bound, chosen⟩ := get_peer_chooses (run.state_nonempty round) (run.open_ round)
  exact ⟨⟨index, by rwa [← run.length_eq round]⟩, chosen⟩

def peerAt (index : Fin run.number) : Peer :=
  (run.state round).get ⟨index.val, by rw [run.length_eq]; exact index.isLt⟩

theorem peer_at_found (index : Fin run.number) :
    (run.state round)[index.val]? = some (run.peerAt round index) := by
  simp [peerAt]

theorem peer_at_member (index : Fin run.number) : run.peerAt round index ∈ run.state round := by
  simp [peerAt]

theorem weight_at (index : Fin run.number) :
    (run.peerAt round index).weight = (run.peerAt 0 index).weight := by
  have same := congrArg (fun list : List Int => list[index.val]?) (run.static round).1
  simpa [peer_at_found] using same

theorem total_weight_at : ((run.state round).map Peer.weight).sum = run.totalWeight := by
  rw [(run.static round).1, totalWeight]

end

theorem total_weight_sum : run.totalWeight = ∑ index, (run.peerAt 0 index).weight := by
  have listed : (run.state 0).map Peer.weight =
      List.ofFn fun index : Fin run.number => (run.peerAt 0 index).weight := by
    apply ext_getElem
    · simp [number]
    · intro index _ _
      simp [peerAt]
  rw [totalWeight, listed, sum_ofFn]

theorem weight_pos_at (round : Nat) : ∀ peer ∈ run.state round, 1 ≤ peer.weight := by
  intro peer mem
  have listed : peer.weight ∈ (run.state 0).map Peer.weight := by
    rw [← (run.static round).1]
    exact mem_map_of_mem mem
  obtain ⟨first, firstMem, same⟩ := mem_map.mp listed
  rw [← same]
  exact (run.start first firstMem).1

theorem bounds_at (round : Nat) : ∀ peer ∈ run.state round,
    0 ≤ peer.effectiveWeight ∧ peer.effectiveWeight ≤ peer.weight := by
  intro peer mem
  have positive := run.weight_pos_at round peer mem
  have settled := (run.static round).2 peer mem
  omega

theorem carried_standing (round : Nat) :
    (run.state (round + 1)).map standing = (run.selection round).peer.map standing := by
  have same := congrArg (List.map fun all : Int × Int × Int => (all.1, all.2.2)) (run.carried round)
  simp only [map_map] at same
  exact same

theorem credit_at (round : Nat) (index : Fin run.number) :
    credit (run.state round) index = (run.peerAt round index).currentWeight := by
  simp [credit, peer_at_found]

theorem earned_at (round : Nat) (index : Fin run.number) :
    earned (run.now round) (freshTried (run.words round)) (run.state round) 0 index =
      (run.peerAt 0 index).weight := by
  rw [open_earned (run.open_ round), run.peer_at_found, ← run.weight_at round]
  exact (run.static round).2 _ (run.peer_at_member round index)

theorem earned_sum (round : Nat) : ∑ offset ∈ Finset.range (run.state round).length,
    earned (run.now round) (freshTried (run.words round)) (run.state round) 0 offset =
      run.totalWeight := by
  simp only [open_earned (run.open_ round)]
  rw [sum_range_elim, map_congr_left (run.static round).2, run.total_weight_at]

section

variable (fits : run.number * run.totalWeight < 2 ^ 63)

include fits

theorem balanced (round : Nat) : Fits (run.state round) ∧ Balanced (run.state round) := by
  have fitting : ∀ round, Fits (run.state round) := by
    intro round
    unfold Fits NginxRoundRobinCredits.totalWeight
    rwa [run.length_eq, run.total_weight_at]
  refine ⟨fitting round, ?_⟩
  induction round with
  | zero =>
    exact balanced_start fun peer mem =>
      ⟨(run.start peer mem).2.1, zero_le_one.trans (run.start peer mem).1⟩
  | succ round ih =>
    exact (get_peer_balanced (fitting round) ih (run.bounds_at round)).of_standing
      (run.carried_standing round)

theorem picked_credit (round : Nat) {pick : Fin run.number}
    (chosen : (run.selection round).chosen = some pick.val) (index : Fin run.number) :
    (run.peerAt (round + 1) index).currentWeight = (run.peerAt round index).currentWeight +
        (run.peerAt 0 index).weight - (if index = pick then run.totalWeight else 0) ∧
      (run.peerAt round index).currentWeight + (run.peerAt 0 index).weight ≤
        (run.peerAt round pick).currentWeight + (run.peerAt 0 pick).weight := by
  obtain ⟨fitting, balanced⟩ := run.balanced fits round
  have below : index.val < (run.state round).length := by
    rw [run.length_eq]
    exact index.isLt
  obtain ⟨after, largest⟩ := get_peer_credit fitting balanced (run.bounds_at round) chosen below
  simp only [run.credit_at, run.earned_at, run.earned_sum, ← Fin.ext_iff] at after largest
  have earns := (run.start _ (run.peer_at_member 0 index)).1
  refine ⟨?_, largest.resolve_left (by omega)⟩
  rw [← after, ← run.credit_at, credit_standing (run.carried_standing round)]
  rfl

end

noncomputable def credits (fits : run.number * run.totalWeight < 2 ^ 63) :
    GreedyCredit.Run (Fin run.number) where
  weight index := (run.peerAt 0 index).weight
  credit round index := (run.peerAt round index).currentWeight
  pick round := (run.picks_one round).choose
  weight_pos index := (run.start _ (run.peer_at_member 0 index)).1
  start index := (run.start _ (run.peer_at_member 0 index)).2.1
  greedy round index := (run.picked_credit fits round (run.picks_one round).choose_spec index).2
  step round index := by
    have moved := (run.picked_credit fits round (run.picks_one round).choose_spec index).1
    rw [run.total_weight_sum] at moved
    rw [moved]
    simp only [eq_comm]

end EligibleRun

/-- In the selections of any cycle every peer is returned as often as its weight
says, and at the end of the cycle all current weights are zero again, while the number of
peers times the sum of their weights fits in an `ngx_int_t`. -/
theorem smooth_round_robin_proportional (run : EligibleRun)
    (fits : run.number * run.totalWeight < 2 ^ 63) (cycle : Nat) :
    (∀ index peer, (run.state 0)[index]? = some peer →
      (((Finset.Ico (cycle * run.totalWeight.toNat) ((cycle + 1) * run.totalWeight.toNat)).filter
        fun round => (run.selection round).chosen = some index).card : Int) = peer.weight) ∧
      ∀ peer ∈ run.state ((cycle + 1) * run.totalWeight.toNat), peer.currentWeight = 0 := by
  have total : (run.credits fits).total = run.totalWeight := run.total_weight_sum.symm
  constructor
  · intro index peer found
    have bound : index < run.number := (List.getElem?_eq_some_iff.mp found).1
    have share := (run.credits fits).cycle_share cycle ⟨index, bound⟩
    have own : (run.peerAt 0 ⟨index, bound⟩).weight = peer.weight := by
      have there := run.peer_at_found 0 ⟨index, bound⟩
      rw [found] at there
      rw [← Option.some.inj there]
    have picks : ∀ round, ((run.credits fits).pick round = ⟨index, bound⟩ ↔
        (run.selection round).chosen = some index) := by
      intro round
      have chosen := (run.picks_one round).choose_spec
      constructor
      · intro same
        rw [chosen, show (run.picks_one round).choose = ⟨index, bound⟩ from same]
      · intro same
        rw [chosen] at same
        exact Fin.ext (Option.some.inj same)
    simp only [picks, total] at share
    rw [share]
    exact own
  · intro peer mem
    obtain ⟨index, found⟩ := mem_iff_getElem?.mp mem
    have bound : index < run.number := by
      rw [← run.length_eq ((cycle + 1) * run.totalWeight.toNat)]
      exact (List.getElem?_eq_some_iff.mp found).1
    have zero := (run.credits fits).cycle_credit (cycle + 1) ⟨index, bound⟩
    rw [total] at zero
    have there := run.peer_at_found ((cycle + 1) * run.totalWeight.toNat) ⟨index, bound⟩
    rw [found] at there
    rw [Option.some.inj there]
    exact zero

def plainPeer (weight : Int) : Peer where
  currentWeight := 0
  effectiveWeight := weight
  weight := weight
  conns := 0
  maxConns := 0
  fails := 0
  accessed := 0
  checked := 0
  maxFails := 0
  failTimeout := 0
  down := false

def steadyState (list : List Peer) : Nat → List Peer
  | 0 => list
  | round + 1 => (ngxHttpUpstreamGetPeer 0 (freshTried 1) (steadyState list round)).peer

theorem steady_statics (list : List Peer) (round : Nat) :
    (steadyState list round).map statics = list.map statics := by
  induction round with
  | zero => rfl
  | succ round ih =>
    simp only [steadyState]
    rw [get_peer_statics, ih]

/-- Peers without limits on failures and connections, left to the balancer alone. -/
def steadyRun (list : List Int) (nonempty : list ≠ []) (pos : ∀ weight ∈ list, 1 ≤ weight) :
    EligibleRun where
  state := steadyState (list.map plainPeer)
  now _ := 0
  words _ := 1
  nonempty := by simpa [steadyState] using nonempty
  start peer mem := by
    obtain ⟨weight, listed, rfl⟩ := List.mem_map.mp mem
    exact ⟨pos weight listed, rfl, rfl⟩
  eligible round peer mem := by
    have kept : statics peer ∈ (list.map plainPeer).map statics := by
      rw [← steady_statics (list.map plainPeer) round]
      exact List.mem_map_of_mem mem
    simp only [List.map_map, List.mem_map, Function.comp_apply] at kept
    obtain ⟨weight, _, same⟩ := kept
    simp only [statics, plainPeer, Prod.mk.injEq] at same
    obtain ⟨_, _, maxConns, _, _, maxFails, _, down⟩ := same
    exact ⟨down.symm, .inl maxFails.symm, .inl maxConns.symm⟩
  carried _ := rfl

theorem smooth_round_robin_five_one_one : (((Finset.Ico 7 14).filter fun round =>
      ((steadyRun [5, 1, 1] (by decide) (by decide)).selection round).chosen = some 0).card : Int) = 5 := by
  have cycle := (smooth_round_robin_proportional
    (steadyRun [5, 1, 1] (by decide) (by decide)) (by decide) 1).1 0 (plainPeer 5) rfl
  exact cycle

def heaviestRun : EligibleRun := steadyRun [2 ^ 63 - 1, 2 ^ 63 - 1] (by decide) (by decide)

/-- The sums of the loop wrap, and every second selection leaves the same weights. -/
theorem heaviest_even_rounds (pairs : Nat) :
    (heaviestRun.state (2 * pairs + 2)).map Peer.currentWeight = [2, -2] := by
  have same : heaviestRun.state (2 * pairs + 2) = heaviestRun.state 2 := by
    induction pairs with
    | zero => rfl
    | succ pairs ih =>
      have twice : ∀ round, heaviestRun.state (round + 2) = (ngxHttpUpstreamGetPeer 0 (freshTried 1)
          (ngxHttpUpstreamGetPeer 0 (freshTried 1) (heaviestRun.state round)).peer).peer := fun _ => rfl
      rw [show 2 * (pairs + 1) + 2 = 2 * pairs + 2 + 2 from rfl, twice, ih]
      decide
  rw [same]
  decide

theorem heaviest_cycle_not_zero : ∃ peer ∈ heaviestRun.state ((0 + 1) * heaviestRun.totalWeight.toNat),
    peer.currentWeight ≠ 0 := by
  have left : 2 ∈ (heaviestRun.state (2 * (2 ^ 63 - 2) + 2)).map Peer.currentWeight := by
    rw [heaviest_even_rounds]
    decide
  obtain ⟨peer, mem, isTwo⟩ := mem_map.mp left
  exact ⟨peer, mem, by omega⟩

/-- At any time a peer is behind its share of the selections by its current weight, and
ahead of it by less than one selection. -/
theorem smooth_round_robin_even (run : EligibleRun)
    (fits : run.number * run.totalWeight < 2 ^ 63) (round : Nat) (index : Fin run.number) :
    (run.peerAt round index).currentWeight = round * (run.peerAt 0 index).weight - run.totalWeight *
      ((Finset.range round).filter fun earlier => (run.selection earlier).chosen = some index.val).card ∧
      -run.totalWeight < (run.peerAt round index).currentWeight := by
  have picked : ∀ earlier, (run.selection earlier).chosen = some index.val ↔
      (run.credits fits).pick earlier = index := by
    intro earlier
    rw [(run.picks_one earlier).choose_spec, Option.some_inj, Fin.val_inj]
    rfl
  simp only [picked, run.total_weight_sum]
  exact ⟨(run.credits fits).credit_eq round index, (run.credits fits).credit_gt round index⟩

theorem smooth_round_robin_even_three :
    ((steadyRun [5, 1, 1] (by decide) (by decide)).peerAt 3 ⟨1, by decide⟩).currentWeight = 3 * 1 - 7 * 1 ∧
      -7 < ((steadyRun [5, 1, 1] (by decide) (by decide)).peerAt 3 ⟨1, by decide⟩).currentWeight := by
  have even := smooth_round_robin_even (steadyRun [5, 1, 1] (by decide) (by decide))
    (by decide) 3 ⟨1, by decide⟩
  exact even

end ServerCore.NginxRoundRobinFairness
