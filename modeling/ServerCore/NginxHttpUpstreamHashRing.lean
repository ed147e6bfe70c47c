import ServerCore.NginxHttpUpstreamHash
import ServerCore.SuccessorCycle
import Mathlib.Data.List.GetD

/-!
# The ring of a consistent hash

After sorting and the removal of repeated hashes the ring is an ascending table
of the hashes of all points, and the search finds the lower bound of a hash in
it.
-/

namespace ServerCore.NginxHttpUpstreamHashRing

open SuccessorCycle NginxHttpUpstreamHash List Function

variable {i j turns : Nat}

def table (cells : Nat → ChashPoint) (k : Nat) : Nat := (cells k).hash.toNat

/-- The cells up to `i` are what is kept of the first `j` points. -/
structure Dropped (points cells : Nat → ChashPoint) (i j : Nat) : Prop where
  behind : i < j
  rest : ∀ k, j ≤ k → cells k = points k
  ascending : Ascending (table cells) (i + 1)
  last : table cells i = table points (j - 1)
  covered : ∀ k < j, ∃ a ≤ i, table cells a = table points k
  kept : ∀ a ≤ i, ∃ k < j, cells a = points k

variable {cells : Nat → ChashPoint} {ring : ChashPoints} {points : List ChashPoint}

theorem dropped_step {points : Nat → ChashPoint}
    (dropped : Dropped points cells i j) (sorted : table points (j - 1) ≤ table points j) :
    Dropped points (dropRepeat cells i j).1 (dropRepeat cells i j).2 (j + 1) := by
  obtain ⟨behind, rest, ascending, last, covered, kept⟩ := dropped
  have here : cells j = points j := rest j le_rfl
  have hereTable : table cells j = table points j := congrArg (·.hash.toNat) here
  by_cases differs : (cells i).hash ≠ (cells j).hash
  · simp only [dropRepeat, if_pos differs]
    have grows : table cells i < table points j := by
      have unequal : table cells i ≠ table cells j := fun same => differs (BitVec.eq_of_toNat_eq same)
      omega
    have new : update cells (i + 1) (cells j) (i + 1) = points j := by
      rw [update_self, here]
    have old : ∀ a ≤ i, update cells (i + 1) (cells j) a = cells a := by
      intro a inside
      exact update_of_ne (by omega) _ _
    have oldTable : ∀ a ≤ i, table (update cells (i + 1) (cells j)) a = table cells a :=
      fun a inside => congrArg (·.hash.toNat) (old a inside)
    have newTable : table (update cells (i + 1) (cells j)) (i + 1) = table points j :=
      congrArg (·.hash.toNat) new
    refine ⟨by omega, ?_, ?_, newTable, ?_, ?_⟩
    · intro k beyond
      rw [update_of_ne (by omega), rest k (by omega)]
    · intro a b less inside
      rw [oldTable a (by omega)]
      cases lt_or_eq_of_le (Nat.le_of_lt_succ inside) with
      | inl small =>
        rw [oldTable b (by omega)]
        exact ascending a b less small
      | inr top =>
        rw [top, newTable]
        exact lt_of_le_of_lt (ascending_le ascending (by omega) (Nat.lt_succ_self i)) grows
    · intro k inside
      cases lt_or_eq_of_le (Nat.le_of_lt_succ inside) with
      | inl small =>
        obtain ⟨a, within, same⟩ := covered k small
        exact ⟨a, by omega, (oldTable a within).trans same⟩
      | inr top => exact ⟨i + 1, le_rfl, by rw [top, newTable]⟩
    · intro a within
      cases lt_or_eq_of_le within with
      | inl small =>
        obtain ⟨k, inside, same⟩ := kept a (by omega)
        exact ⟨k, by omega, (old a (by omega)).trans same⟩
      | inr top => exact ⟨j, Nat.lt_succ_self j, by rw [top, new]⟩
  · simp only [dropRepeat, if_neg differs]
    have same : table cells i = table points j := by
      rw [← hereTable]
      exact congrArg BitVec.toNat (not_not.mp differs)
    refine ⟨by omega, fun k beyond => rest k (by omega), ascending, same, ?_, ?_⟩
    · intro k inside
      cases lt_or_eq_of_le (Nat.le_of_lt_succ inside) with
      | inl small => exact covered k small
      | inr top => exact ⟨i, le_rfl, by rw [top, same]⟩
    · intro a within
      obtain ⟨k, inside, found⟩ := kept a within
      exact ⟨k, by omega, found⟩

theorem dropped_loop {points : Nat → ChashPoint}
    (sorted : ∀ k < j + turns, table points (k - 1) ≤ table points k) (dropped : Dropped points cells i j) :
    Dropped points (dropRepeats turns cells i j).1 (dropRepeats turns cells i j).2 (j + turns) := by
  induction turns generalizing cells i j with
  | zero => exact dropped
  | succ turns ih =>
    have next := dropped_step dropped (sorted j (by omega))
    have done := ih (by
      intro k inside
      exact sorted k (by omega)) next
    rwa [add_right_comm j 1 turns] at done

theorem dropped_first {points : Nat → ChashPoint} : Dropped points points 0 1 := by
  refine ⟨Nat.zero_lt_one, fun _ _ => rfl, ?_, rfl, ?_, ?_⟩
  · intro a b less inside
    omega
  · intro k inside
    exact ⟨0, le_rfl, by rw [Nat.lt_one_iff.mp inside]⟩
  · intro a within
    exact ⟨0, Nat.zero_lt_one, by rw [Nat.le_zero.mp within]⟩

/-- A ring with the hashes of the given points, each once and in order. -/
structure RingOf (ring : ChashPoints) (points : List ChashPoint) : Prop where
  positive : 0 < ring.number
  ascending : Ascending (table ring.point) ring.number
  found : ∀ k < ring.number, ring.point k ∈ points
  covered : ∀ point ∈ points, ∃ k < ring.number, table ring.point k = point.hash.toNat

theorem sorted_points {points : List ChashPoint} :
    (points.mergeSort cmpPoints).Pairwise fun one two => one.hash.toNat ≤ two.hash.toNat := by
  have sorted := @List.pairwise_mergeSort _ cmpPoints
    (by
      intro one two three first second
      simp only [cmpPoints, decide_eq_true_eq, BitVec.le_def] at first second ⊢
      omega)
    (by
      intro one two
      simp only [cmpPoints, Bool.or_eq_true, decide_eq_true_eq, BitVec.le_def]
      omega) points
  apply sorted.imp
  intro one two order
  simpa [cmpPoints, BitVec.le_def] using order

theorem init_ring (update : Update) {peers : List ChashPeer} (some_ : ringPoints update peers ≠ []) :
    ∃ ring, ngxHttpUpstreamInitChash update peers = some ring ∧ RingOf ring (ringPoints update peers) := by
  have peersSome : ¬peers.length = 0 := by
    intro none
    rw [length_eq_zero_iff.mp none] at some_
    exact some_ rfl
  obtain ⟨points, isSorted⟩ : ∃ points, points = (ringPoints update peers).mergeSort cmpPoints :=
    ⟨_, rfl⟩
  have sorted : points.Pairwise fun one two => one.hash.toNat ≤ two.hash.toNat := by
    rw [isSorted]
    exact sorted_points
  have mem : ∀ point, point ∈ points ↔ point ∈ ringPoints update peers := by
    intro point
    rw [isSorted]
    exact mem_mergeSort
  have positive : 0 < points.length := by
    rw [isSorted, length_mergeSort]
    exact length_pos_of_ne_nil some_
  have inTable : ∀ k < points.length, ∃ inside : k < points.length,
      points.getD k noPoint = points[k] := fun k inside => ⟨inside, getD_eq_getElem _ _ inside⟩
  have ordered : ∀ k < 1 + (points.length - 1),
      table (fun k => points.getD k noPoint) (k - 1) ≤ table (fun k => points.getD k noPoint) k := by
    intro k within
    obtain ⟨inside, here⟩ := inTable k (by omega)
    obtain ⟨before, there⟩ := inTable (k - 1) (by omega)
    simp only [table, here, there]
    cases Nat.eq_zero_or_pos k with
    | inl zero => simp [zero]
    | inr later => exact pairwise_iff_getElem.mp sorted (k - 1) k before inside (by omega)
  have dropped := dropped_loop ordered dropped_first
  rw [Nat.add_sub_cancel' positive] at dropped
  refine ⟨_, by rw [ngxHttpUpstreamInitChash, if_neg peersSome, ← isSorted], ?_⟩
  refine ⟨Nat.succ_pos _, dropped.ascending, ?_, ?_⟩
  · intro k within
    obtain ⟨pos, inside, same⟩ := dropped.kept k (Nat.le_of_lt_succ within)
    obtain ⟨inside, here⟩ := inTable pos inside
    rw [← mem]
    dsimp only
    rw [same, here]
    exact getElem_mem inside
  · intro point member
    rw [← mem] at member
    obtain ⟨pos, inside, here⟩ := getElem_of_mem member
    obtain ⟨a, within, same⟩ := dropped.covered pos inside
    refine ⟨a, Nat.lt_succ_of_le within, same.trans ?_⟩
    rw [table, getD_eq_getElem _ _ inside, here]

theorem find_from_bound (ascending : Ascending (table ring.point) ring.number)
    {hash : Hash} (order : i ≤ j) (within : j ≤ ring.number)
    (enough : j - i ≤ turns) (below : ∀ k < i, table ring.point k < hash.toNat)
    (above : ∀ k < ring.number, j ≤ k → hash.toNat ≤ table ring.point k) :
    LowerBound (table ring.point) ring.number hash.toNat (findFrom ring hash turns i j) := by
  induction turns generalizing i j with
  | zero =>
    have met : i = j := by omega
    rw [← met] at above within
    exact ⟨within, below, above⟩
  | succ turns ih =>
    simp only [findFrom]
    by_cases open_ : i < j
    · rw [if_pos open_]
      obtain ⟨k, isMiddle⟩ : ∃ k, k = (i + j) / 2 := ⟨_, rfl⟩
      have low : i ≤ k := by omega
      have high : k < j := by omega
      rw [← isMiddle]
      have before : ∀ a < k, table ring.point a < table ring.point k :=
        fun a less => ascending a k less (lt_of_lt_of_le high within)
      have after : ∀ a < ring.number, k ≤ a → table ring.point k ≤ table ring.point a :=
        fun a inside more => ascending_le ascending more inside
      by_cases greater : hash > (ring.point k).hash
      · rw [if_pos greater]
        apply ih (by omega) within (by omega) _ above
        intro a less
        exact lt_of_le_of_lt (ascending_le ascending (by omega) (by omega)) greater
      · rw [if_neg greater]
        have notAbove : hash.toNat ≤ table ring.point k := not_lt.mp greater
        by_cases less : hash < (ring.point k).hash
        · rw [if_pos less]
          apply ih low (by omega) (by omega) below
          intro a inside more
          exact le_trans notAbove (after a inside more)
        · rw [if_neg less]
          have notBelow : table ring.point k ≤ hash.toNat := not_lt.mp less
          refine ⟨by omega, fun a smaller => lt_of_lt_of_le (before a smaller) notBelow, ?_⟩
          intro a inside more
          exact le_trans notAbove (after a inside more)
    · rw [if_neg open_]
      have met : i = j := by omega
      rw [← met] at above within
      exact ⟨within, below, above⟩

theorem find_bound (ascending : Ascending (table ring.point) ring.number) (hash : Hash) :
    LowerBound (table ring.point) ring.number hash.toNat (ngxHttpUpstreamFindChashPoint ring hash) := by
  apply find_from_bound ascending (Nat.zero_le _) (Nat.le_refl _) (Nat.sub_le _ _)
  · intro k below
    cases below
  · intro k inside beyond
    omega

theorem ascending_self_le {cells : Nat → Nat} {count : Nat} (ascending : Ascending cells count) (k : Nat)
    (inside : k < count) : k ≤ cells k := by
  induction k with
  | zero => exact Nat.zero_le _
  | succ k ih =>
    have grows := ascending k (k + 1) (Nat.lt_succ_self k) inside
    omega

theorem find_fits (ascending : Ascending (table ring.point) ring.number)
    (hash : Hash) : ngxHttpUpstreamFindChashPoint ring hash < 2 ^ 32 := by
  have bound := find_bound ascending hash
  cases isIndex : ngxHttpUpstreamFindChashPoint ring hash with
  | zero => decide
  | succ k =>
    rw [isIndex] at bound
    have within := bound.within
    have below := bound.below k (Nat.lt_succ_self k)
    have self := ascending_self_le ascending k (by omega)
    omega

def hashes (points : List ChashPoint) : Set Nat := {hash | ∃ point ∈ points, point.hash.toNat = hash}

theorem keys_of_ring (isRing : RingOf ring points) :
    keysOf (table ring.point) ring.number = hashes points := by
  ext hash
  constructor
  · rintro ⟨k, inside, rfl⟩
    exact ⟨ring.point k, isRing.found k inside, rfl⟩
  · rintro ⟨point, member, rfl⟩
    exact isRing.covered point member

theorem start_point (isRing : RingOf ring points)
    (tried : List NginxUpstreamRoundRobin.Word) (hash : Hash) : ∃ point ∈ points,
      ring.point ((ngxHttpUpstreamInitChashPeer ring tried hash).hash.toNat % ring.number) = point ∧
        Succeeds (hashes points) hash.toNat point.hash.toNat := by
  have fits := find_fits isRing.ascending hash
  have same : (ngxHttpUpstreamInitChashPeer ring tried hash).hash.toNat =
      ngxHttpUpstreamFindChashPoint ring hash := by
    simp only [ngxHttpUpstreamInitChashPeer, BitVec.toNat_ofNat]
    exact Nat.mod_eq_of_lt fits
  have succeeds := lower_bound_succeeds isRing.ascending isRing.positive
    (find_bound isRing.ascending hash)
  rw [keys_of_ring isRing] at succeeds
  rw [same]
  exact ⟨_, isRing.found _ (Nat.mod_lt _ isRing.positive), rfl, succeeds⟩

end ServerCore.NginxHttpUpstreamHashRing
