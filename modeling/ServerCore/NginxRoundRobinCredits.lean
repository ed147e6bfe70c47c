import ServerCore.GreedyCredit
import ServerCore.NginxRoundRobinSelection

/-!
# Current weights that fit

The sum of the current weights is zero at any time as far as a word can tell. While the number of
peers times the sum of their weights fits in an `ngx_int_t` no sum of the balancer wraps: each
selection is one among any participants, and none of them is owed more than that.
-/

namespace ServerCore.NginxRoundRobinCredits

open NginxUpstreamRoundRobin NginxRoundRobinSelection GreedyCredit

variable {other : List Peer}

def totalWeight (list : List Peer) : Int := (list.map Peer.weight).sum

def Fits (list : List Peer) : Prop := list.length * totalWeight list < 2 ^ 63

def credit (list : List Peer) (index : Nat) : Int := list[index]?.elim 0 Peer.currentWeight

structure Balanced (list : List Peer) : Prop where
  sum : currentWeights list = 0
  spread : Spread (Finset.range list.length) (totalWeight list) (credit list)

/-- What the loop, entered at the peer with number `index`, adds to the peer behind it by `offset`. -/
def earned (now : Int) (tried : List Word) (list : List Peer) (index offset : Nat) : Int :=
  list[offset]?.elim 0 fun peer =>
    if skipped now tried (index + offset) peer then 0 else peer.effectiveWeight

theorem sum_range_elim (measure : Peer → Int) (list : List Peer) :
    ∑ index ∈ Finset.range list.length, list[index]?.elim 0 measure = (list.map measure).sum := by
  induction list with
  | nil => rfl
  | cons peer rest ih =>
    rw [List.length_cons, Finset.sum_range_succ', List.map_cons, List.sum_cons, ← ih, add_comm]
    rfl

variable {now : Int} {tried : List Word} {list : List Peer} {index offset : Nat}

theorem earned_cons (peer : Peer) : earned now tried (peer :: list) index (offset + 1) =
    earned now tried list (index + 1) offset := by
  have shift : index + (offset + 1) = index + 1 + offset := by omega
  simp [earned, shift]

theorem scan_total {best : Option Best} {total : Int} (nonneg : ∀ peer ∈ list, 0 ≤ peer.effectiveWeight)
    (low : 0 ≤ total) (high : total + ∑ offset ∈ Finset.range list.length,
      earned now tried list index offset < 2 ^ 63) : (scan now tried index list best total).total =
      total + ∑ offset ∈ Finset.range list.length, earned now tried list index offset := by
  induction list generalizing index best total with
  | nil => simp [scan]
  | cons peer rest ih =>
    have later : ∀ offset, 0 ≤ earned now tried rest (index + 1) offset := by
      intro offset
      unfold earned
      cases found : rest[offset]? with
      | none => exact le_refl _
      | some other =>
        have own := nonneg other (List.mem_cons_of_mem peer (List.mem_of_getElem? found))
        dsimp only [Option.elim]
        split_ifs
        · exact le_refl _
        · exact own
    have all := Finset.sum_nonneg fun offset (_ : offset ∈ Finset.range rest.length) => later offset
    have own := nonneg peer List.mem_cons_self
    have rests := fun other mem => nonneg other (List.mem_cons_of_mem peer mem)
    rw [List.length_cons, Finset.sum_range_succ'] at high ⊢
    simp only [earned_cons] at high ⊢
    have first : earned now tried (peer :: rest) index 0 =
        if skipped now tried index peer then 0 else peer.effectiveWeight := rfl
    rw [first] at high ⊢
    simp only [scan]
    split_ifs at high ⊢ with skip
    · rw [ih rests low (by omega)]
      omega
    · have noWrap : ngxInt (total + peer.effectiveWeight) = total + peer.effectiveWeight :=
        ngx_int_of_fits (by omega) (by omega)
      rw [noWrap, ih rests (by omega) (by omega)]
      omega

section

variable (bounds : ∀ peer ∈ list, 0 ≤ peer.effectiveWeight ∧ peer.effectiveWeight ≤ peer.weight)
include bounds

theorem earned_le_weight (now : Int) (tried : List Word) (index offset : Nat) :
    0 ≤ earned now tried list index offset ∧
      earned now tried list index offset ≤ list[offset]?.elim 0 Peer.weight := by
  unfold earned
  cases found : list[offset]? with
  | none => exact ⟨le_refl _, le_refl _⟩
  | some peer =>
    have own := bounds peer (List.mem_of_getElem? found)
    dsimp only [Option.elim]
    split_ifs
    · exact ⟨le_refl _, own.1.trans own.2⟩
    · exact own

theorem earned_total (now : Int) (tried : List Word) (index : Nat) :
    ∑ offset ∈ Finset.range list.length, earned now tried list index offset ≤ totalWeight list := by
  unfold totalWeight
  rw [← sum_range_elim]
  exact Finset.sum_le_sum fun offset _ => (earned_le_weight bounds now tried index offset).2

end

/-- The largest sum of the balancer: a credit and what a peer earns. -/
theorem Balanced.credit_bounds (balanced : Balanced list) {offset : Nat} (below : offset < list.length) :
    -(list.length * totalWeight list - totalWeight list) ≤ credit list offset ∧
      credit list offset ≤ list.length * totalWeight list - totalWeight list := by
  have sum : ∑ index ∈ Finset.range list.length, credit list index = 0 :=
    (sum_range_elim Peer.currentWeight list).trans balanced.sum
  have bounds := spread_bounds balanced.spread sum (Finset.mem_range.mpr below)
  rw [Finset.card_range] at bounds
  have product : totalWeight list * (list.length - 1) =
      list.length * totalWeight list - totalWeight list := by ring
  rwa [product] at bounds

section

variable (fits : Fits list) (balanced : Balanced list)
  (bounds : ∀ peer ∈ list, 0 ≤ peer.effectiveWeight ∧ peer.effectiveWeight ≤ peer.weight)

include fits balanced bounds

theorem bump_fits {peer : Peer} (found : list[offset]? = some peer)
    (open_ : skipped now tried offset peer = false) :
    peer.bump.currentWeight = credit list offset + earned now tried list 0 offset := by
  have below := (List.getElem?_eq_some_iff.mp found).1
  have owed := balanced.credit_bounds below
  have nonneg := fun offset (_ : offset ∈ Finset.range list.length) =>
    (earned_le_weight bounds now tried 0 offset).1
  have share := Finset.single_le_sum nonneg (Finset.mem_range.mpr below)
  have all := earned_total bounds now tried 0
  have own : credit list offset = peer.currentWeight := by simp [credit, found]
  have gain : earned now tried list 0 offset = peer.effectiveWeight := by
    simp [earned, found, open_]
  have positive := nonneg offset (Finset.mem_range.mpr below)
  unfold Fits at fits
  rw [own] at owed ⊢
  rw [gain] at share positive ⊢
  exact ngx_int_of_fits (by omega) (by omega)

/-- Without a sum that wraps a selection gives every peer that is not skipped its effective
weight, and the chosen one, which has the most then, pays all of it. -/
theorem get_peer_credit {index : Nat} (chosen : (ngxHttpUpstreamGetPeer now tried list).chosen = some index)
    (below : offset < list.length) : credit (ngxHttpUpstreamGetPeer now tried list).peer offset =
        credit list offset + earned now tried list 0 offset - (if offset = index then
          ∑ other ∈ Finset.range list.length, earned now tried list 0 other else 0) ∧
      (earned now tried list 0 offset = 0 ∨ credit list offset + earned now tried list 0 offset ≤
        credit list index + earned now tried list 0 index) := by
  obtain ⟨total, picked, foundPicked, openPicked, sameTotal, largest, _, result⟩ := get_peer_some chosen
  have all := earned_total bounds now tried 0
  have nonneg := fun offset => (earned_le_weight bounds now tried 0 offset).1
  have owed := balanced.credit_bounds below
  have room : list.length * totalWeight list < 2 ^ 63 := fits
  rw [scan_total (fun peer mem => (bounds peer mem).1) (le_refl 0) (by
    omega), zero_add] at sameTotal
  obtain ⟨peer, found⟩ : ∃ peer, list[offset]? = some peer := ⟨_, List.getElem?_eq_getElem below⟩
  have own : credit list offset = peer.currentWeight := by simp [credit, found]
  have after : (visited now tried offset peer).currentWeight =
      credit list offset + earned now tried list 0 offset := by
    by_cases skip : skipped now tried offset peer = true
    · simp [visited, earned, credit, found, skip]
    · rw [← bump_fits fits balanced bounds found (by simpa using skip)]
      simp [visited, skip]
  constructor
  · unfold credit at after ⊢
    rw [result, List.getElem?_modify, scan_get, zero_add, found]
    by_cases same : offset = index
    · subst same
      have gain := nonneg offset
      have share := Finset.single_le_sum (fun other _ => nonneg other) (Finset.mem_range.mpr below)
      simp only [found, Option.elim] at after
      simp only [Option.map_some, if_true, Option.map_eq_map, Option.elim, Peer.settle, after, sameTotal]
      exact ngx_int_of_fits (by omega) (by omega)
    · simpa [same, Ne.symm same, found] using after
  · by_cases skip : skipped now tried offset peer = true
    · left
      simp [earned, found, skip]
    · right
      have most := largest peer offset found (by simpa using skip)
      rwa [bump_fits fits balanced bounds found (by simpa using skip),
        bump_fits fits balanced bounds foundPicked openPicked] at most

theorem get_peer_balanced : Balanced (ngxHttpUpstreamGetPeer now tried list).peer := by
  cases chosen : (ngxHttpUpstreamGetPeer now tried list).chosen with
  | none =>
    rw [get_peer_none chosen]
    exact balanced
  | some index =>
    obtain ⟨_, _, found, _⟩ := get_peer_some chosen
    have picked := Finset.mem_range.mpr (List.getElem?_eq_some_iff.mp found).1
    have credits := fun offset (mem : offset ∈ Finset.range list.length) =>
      get_peer_credit fits balanced bounds chosen (Finset.mem_range.mp mem)
    have length := get_peer_length now tried list
    have weights : totalWeight (ngxHttpUpstreamGetPeer now tried list).peer = totalWeight list := by
      have kept := congrArg (List.map Prod.fst) (get_peer_statics now tried list)
      simp only [List.map_map] at kept
      exact congrArg List.sum kept
    constructor
    · have before := (sum_range_elim Peer.currentWeight list).trans balanced.sum
      unfold currentWeights
      rw [← sum_range_elim, length]
      refine (Finset.sum_congr rfl fun offset mem => (credits offset mem).1).trans ?_
      rw [Finset.sum_sub_distrib, Finset.sum_add_distrib, Finset.sum_ite_eq', if_pos picked]
      unfold credit
      rw [before]
      ring
    · rw [length, weights]
      exact spread_serve balanced.spread picked
        (fun offset _ => (earned_le_weight bounds now tried 0 offset).1)
        (earned_total bounds now tried 0) (fun offset mem => (credits offset mem).2)
        fun offset mem => (credits offset mem).1

end

theorem balanced_start (new : ∀ peer ∈ list, peer.currentWeight = 0 ∧ 0 ≤ peer.weight) : Balanced list := by
  have none : ∀ index, credit list index = 0 := by
    intro index
    unfold credit
    cases found : list[index]? with
    | none => rfl
    | some peer => exact (new peer (List.mem_of_getElem? found)).1
  constructor
  · unfold currentWeights
    rw [← sum_range_elim]
    exact Finset.sum_eq_zero fun index _ => none index
  · intro part within
    have size := Finset.card_le_card within
    have nonneg : 0 ≤ totalWeight list := by
      apply List.sum_nonneg
      intro weight mem
      obtain ⟨peer, listed, rfl⟩ := List.mem_map.mp mem
      exact (new peer listed).2
    rw [Finset.sum_eq_zero fun index _ => none index]
    exact mul_nonneg nonneg (mul_nonneg (Int.natCast_nonneg _) (by omega))

/-- All that the credits of a list depend on. -/
def standing (peer : Peer) : Int × Int := (peer.currentWeight, peer.weight)

theorem total_weight_standing (same : other.map standing = list.map standing) :
    totalWeight other = totalWeight list := by
  have weights := congrArg (List.map Prod.snd) same
  simp only [List.map_map] at weights
  exact congrArg List.sum weights

theorem current_weights_standing (same : other.map standing = list.map standing) :
    currentWeights other = currentWeights list := by
  have currents := congrArg (List.map Prod.fst) same
  simp only [List.map_map] at currents
  exact congrArg List.sum currents

theorem credit_standing (same : other.map standing = list.map standing) :
    credit other = credit list := by
  funext index
  have value : ∀ list, credit list index = ((list.map standing)[index]?.map Prod.fst).getD 0 := by
    intro list
    unfold credit
    rw [List.getElem?_map]
    cases list[index]? <;> rfl
  rw [value, value, same]

theorem Balanced.of_standing (balanced : Balanced list)
    (same : other.map standing = list.map standing) : Balanced other := by
  have length : other.length = list.length := by simpa using congrArg List.length same
  refine ⟨(current_weights_standing same).trans balanced.sum, ?_⟩
  rw [length, total_weight_standing same, credit_standing same]
  exact balanced.spread

end ServerCore.NginxRoundRobinCredits
