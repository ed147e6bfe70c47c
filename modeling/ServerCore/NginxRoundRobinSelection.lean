import ServerCore.NginxUpstreamRoundRobin
import Mathlib.Tactic.Ring

/-!
# What one selection of the balancer does

`ngx_http_upstream_get_peer` is a loop with two accumulators followed by one
correction of the peer it chose. The loop bumps exactly the peers it does not
skip, its `total` is what the bumps added to the current weights, and its `best`
is the first of the largest bumped weights.
-/

namespace ServerCore.NginxRoundRobinSelection

open NginxUpstreamRoundRobin List

variable {index : Nat} {choice : Best} {Value : Type*}

theorem ngx_int_eq (value : Int) : ∃ turns, ngxInt value = value - 2 ^ 64 * turns := by
  refine ⟨value.bdiv (2 ^ 64), ?_⟩
  have split := Int.bmod_add_bdiv value (2 ^ 64)
  unfold ngxInt
  omega

theorem ngx_int_of_fits {value : Int} (low : -2 ^ 63 ≤ value) (high : value < 2 ^ 63) :
    ngxInt value = value :=
  Int.bmod_eq_of_le (by omega) (by omega)

def currentWeights (list : List Peer) : Int := (list.map Peer.currentWeight).sum

/-- The loop as a map: the peer with number `index` after it. -/
def visited (now : Int) (tried : List Word) (index : Nat) (peer : Peer) : Peer :=
  if skipped now tried index peer then peer else peer.bump

section

variable (now : Int) (tried : List Word) (index : Nat) (list : List Peer) (best : Option Best) (total : Int)

theorem scan_length : (scan now tried index list best total).peer.length = list.length := by
  induction list generalizing index best total with
  | nil => rfl
  | cons peer rest ih =>
    simp only [scan]
    split_ifs <;> simp [ih]

theorem scan_get (offset : Nat) : (scan now tried index list best total).peer[offset]? =
      list[offset]?.map (visited now tried (index + offset)) := by
  induction list generalizing index best total offset with
  | nil => simp [scan]
  | cons peer rest ih =>
    cases offset with
    | zero =>
      simp only [scan]
      split_ifs with skip <;> simp [visited, skip]
    | succ offset =>
      have shift : index + 1 + offset = index + (offset + 1) := by omega
      simp only [scan]
      split_ifs <;> simp [ih, shift]

theorem scan_sum : (2 ^ 64 : Int) ∣ currentWeights (scan now tried index list best total).peer -
      (currentWeights list + ((scan now tried index list best total).total - total)) := by
  induction list generalizing index best total with
  | nil => simp [scan, currentWeights]
  | cons peer rest ih =>
    simp only [scan]
    split_ifs with skip
    · have tail := ih (index + 1) best total
      simp only [currentWeights, map_cons, sum_cons] at tail ⊢
      omega
    · have tail := ih (index + 1) (Best.improve best index peer.bump)
        (ngxInt (total + peer.effectiveWeight))
      obtain ⟨_, bumped⟩ := ngx_int_eq (peer.currentWeight + peer.effectiveWeight)
      obtain ⟨_, counted⟩ := ngx_int_eq (total + peer.effectiveWeight)
      simp only [currentWeights, map_cons, sum_cons, counted] at tail ⊢
      simp only [Peer.bump, bumped] at tail ⊢
      omega

end

def statics (peer : Peer) : Int × Nat × Nat × Nat × Int × Nat × Int × Bool :=
  (peer.weight, peer.conns, peer.maxConns, peer.fails, peer.accessed, peer.maxFails,
    peer.failTimeout, peer.down)

theorem scan_statics (now : Int) (tried : List Word) (index : Nat) (list : List Peer)
    (best : Option Best) (total : Int) :
    (scan now tried index list best total).peer.map statics = list.map statics := by
  induction list generalizing index best total with
  | nil => rfl
  | cons peer rest ih =>
    simp only [scan]
    split_ifs <;> simp [ih, statics, Peer.bump]

theorem improve_is_some (best : Option Best) (index : Nat) (peer : Peer) :
    Best.improve best index peer ≠ none := by
  cases best with
  | none => simp [Best.improve]
  | some best =>
    simp only [Best.improve]
    split_ifs <;> simp

theorem improve_le {best : Option Best} {peer : Peer} {after : Best}
    (improved : Best.improve best index peer = some after) : peer.currentWeight ≤ after.currentWeight ∧
      ∀ before, best = some before → before.currentWeight ≤ after.currentWeight := by
  cases best with
  | none =>
    simp only [Best.improve, Option.some.injEq] at improved
    subst improved
    simp
  | some before =>
    simp only [Best.improve] at improved
    split_ifs at improved with better <;> cases improved <;> simp <;> omega

section

variable {now : Int} {tried : List Word} {index : Nat} {list : List Peer} {best : Option Best} {total : Int}

theorem scan_none (none : (scan now tried index list best total).best = none) :
    best = Option.none ∧ (scan now tried index list best total).peer = list := by
  induction list generalizing index best total with
  | nil => exact ⟨none, rfl⟩
  | cons peer rest ih =>
    simp only [scan] at none ⊢
    split_ifs at none ⊢ with skip
    · obtain ⟨start, same⟩ := ih none
      exact ⟨start, by simp [same]⟩
    · exact absurd (ih none).1 (improve_is_some best index peer.bump)

theorem scan_choice (chosen : (scan now tried index list best total).best = some choice) :
    best = some choice ∨ ∃ offset peer, list[offset]? = some peer ∧ choice.p = index + offset ∧
        skipped now tried choice.p peer = false ∧ choice.currentWeight = peer.bump.currentWeight := by
  induction list generalizing index best total with
  | nil => exact .inl chosen
  | cons peer rest ih =>
    have later : ∀ {offset : Nat} {other : Peer}, rest[offset]? = some other →
        choice.p = index + 1 + offset → skipped now tried choice.p other = false →
        choice.currentWeight = other.bump.currentWeight →
        ∃ offset other, (peer :: rest)[offset]? = some other ∧ choice.p = index + offset ∧
          skipped now tried choice.p other = false ∧
          choice.currentWeight = other.bump.currentWeight := by
      intro offset other found place open_ weight
      exact ⟨offset + 1, other, by simpa using found, by omega, open_, weight⟩
    simp only [scan] at chosen
    split_ifs at chosen with skip
    · rcases ih chosen with start | ⟨offset, other, found, place, open_, weight⟩
      · exact .inl start
      · exact .inr (later found place open_ weight)
    · rcases ih chosen with start | ⟨offset, other, found, place, open_, weight⟩
      · have own : some ⟨index, peer.bump.currentWeight⟩ = some choice →
            ∃ offset other, (peer :: rest)[offset]? = some other ∧ choice.p = index + offset ∧
              skipped now tried choice.p other = false ∧
              choice.currentWeight = other.bump.currentWeight := by
          intro same
          cases same
          exact ⟨0, peer, rfl, rfl, by simpa using skip, rfl⟩
        cases best with
        | none => exact .inr (own start)
        | some before =>
          simp only [Best.improve] at start
          split_ifs at start
          · exact .inr (own start)
          · exact .inl start
      · exact .inr (later found place open_ weight)

theorem scan_maximal (chosen : (scan now tried index list best total).best = some choice) :
    (∀ before, best = some before → before.currentWeight ≤ choice.currentWeight) ∧
      ∀ offset peer, list[offset]? = some peer → skipped now tried (index + offset) peer = false →
        peer.bump.currentWeight ≤ choice.currentWeight := by
  induction list generalizing index best total with
  | nil =>
    refine ⟨?_, by simp⟩
    intro before start
    have same : best = some choice := chosen
    cases start.symm.trans same
    exact le_refl _
  | cons peer rest ih =>
    have shift : ∀ offset, index + 1 + offset = index + (offset + 1) := by omega
    simp only [scan] at chosen
    split_ifs at chosen with skip
    · obtain ⟨incoming, others⟩ := ih chosen
      refine ⟨incoming, ?_⟩
      intro offset other found open_
      cases offset with
      | zero =>
        cases found
        simp [skip] at open_
      | succ offset =>
        exact others offset other (by simpa using found) (by rwa [shift])
    · obtain ⟨incoming, others⟩ := ih chosen
      obtain ⟨improved, same⟩ := Option.ne_none_iff_exists'.mp
        (improve_is_some best index peer.bump)
      obtain ⟨own, prev⟩ := improve_le same
      have below := incoming improved same
      refine ⟨fun before start => (prev before start).trans below, ?_⟩
      intro offset other found open_
      cases offset with
      | zero =>
        cases found
        exact own.trans below
      | succ offset =>
        exact others offset other (by simpa using found) (by rwa [shift])

end

section

variable {now : Int} {tried : List Word} {list : List Peer}

theorem get_peer_none (none : (ngxHttpUpstreamGetPeer now tried list).chosen = none) :
    (ngxHttpUpstreamGetPeer now tried list).peer = list := by
  unfold ngxHttpUpstreamGetPeer at none ⊢
  cases best : (scan now tried 0 list Option.none 0).best with
  | none => simpa [best] using (scan_none best).2
  | some choice => simp [best] at none

theorem get_peer_some (chosen : (ngxHttpUpstreamGetPeer now tried list).chosen = some index) :
    ∃ total peer, list[index]? = some peer ∧ skipped now tried index peer = false ∧
      (scan now tried 0 list none 0).total = total ∧
      (∀ other at_, list[at_]? = some other → skipped now tried at_ other = false →
        other.bump.currentWeight ≤ peer.bump.currentWeight) ∧
      (ngxHttpUpstreamGetPeer now tried list).tried = markTried tried index ∧
      (ngxHttpUpstreamGetPeer now tried list).peer =
        (scan now tried 0 list none 0).peer.modify index (Peer.settle now total) := by
  unfold ngxHttpUpstreamGetPeer at chosen ⊢
  cases best : (scan now tried 0 list Option.none 0).best with
  | none => simp [best] at chosen
  | some choice =>
    simp only [best, Option.some.injEq] at chosen ⊢
    subst chosen
    obtain start | ⟨offset, peer, found, place, open_, weight⟩ := scan_choice best
    · simp at start
    · have same : choice.p = offset := by omega
      refine ⟨_, peer, by rw [same]; exact found, open_, rfl, ?_, rfl, rfl⟩
      intro other at_ foundOther openOther
      rw [← weight]
      exact (scan_maximal best).2 at_ other foundOther (by simpa using openOther)

theorem get_peer_at (chosen : (ngxHttpUpstreamGetPeer now tried list).chosen = some index) :
    ∃ total, ∀ at_, (ngxHttpUpstreamGetPeer now tried list).peer[at_]? = list[at_]?.map fun peer =>
        if index = at_ then (visited now tried at_ peer).settle now total
        else visited now tried at_ peer := by
  obtain ⟨total, _, _, _, _, _, _, result⟩ := get_peer_some chosen
  refine ⟨total, ?_⟩
  intro at_
  rw [result, getElem?_modify, scan_get]
  cases list[at_]? with
  | none => rfl
  | some peer => by_cases same : index = at_ <;> simp [same]

end

theorem get_peer_length (now : Int) (tried : List Word) (list : List Peer) :
    (ngxHttpUpstreamGetPeer now tried list).peer.length = list.length := by
  cases chosen : (ngxHttpUpstreamGetPeer now tried list).chosen with
  | none => rw [get_peer_none chosen]
  | some index =>
    obtain ⟨total, _, _, _, _, _, _, result⟩ := get_peer_some chosen
    rw [result, length_modify, scan_length]

theorem map_modify_of_same {Image : Type*} (image : Value → Image)
    (change : Value → Value) (same : ∀ value, image (change value) = image value)
    (list : List Value) (index : Nat) : (list.modify index change).map image = list.map image := by
  induction list generalizing index with
  | nil => simp
  | cons head tail ih => cases index <;> simp [same, ih]

theorem get_peer_statics (now : Int) (tried : List Word) (list : List Peer) :
    (ngxHttpUpstreamGetPeer now tried list).peer.map statics = list.map statics := by
  cases chosen : (ngxHttpUpstreamGetPeer now tried list).chosen with
  | none => rw [get_peer_none chosen]
  | some index =>
    obtain ⟨total, _, _, _, _, _, _, result⟩ := get_peer_some chosen
    rw [result, map_modify_of_same statics (Peer.settle now total) (fun _ => rfl), scan_statics]

theorem sum_map_modify (measure : Value → Int) (change : Value → Value)
    (list : List Value) (index : Nat) (value : Value) (found : list[index]? = some value) :
    ((list.modify index change).map measure).sum =
      (list.map measure).sum + (measure (change value) - measure value) := by
  induction list generalizing index with
  | nil => simp at found
  | cons head tail ih =>
    cases index with
    | zero =>
      cases found
      simp
      ring
    | succ index =>
      have rest := ih index (by simpa using found)
      simp only [modify_succ_cons, map_cons, sum_cons, rest]
      ring

theorem get_peer_sum (now : Int) (tried : List Word) (list : List Peer) : (2 ^ 64 : Int) ∣
    currentWeights (ngxHttpUpstreamGetPeer now tried list).peer - currentWeights list := by
  cases chosen : (ngxHttpUpstreamGetPeer now tried list).chosen with
  | none => simp [get_peer_none chosen]
  | some index =>
    obtain ⟨total, peer, found, _, sameTotal, _, _, result⟩ := get_peer_some chosen
    have after : (scan now tried 0 list Option.none 0).peer[index]? =
        some (visited now tried index peer) := by
      simp [scan_get, found]
    have modified := sum_map_modify Peer.currentWeight (Peer.settle now total) _ index _ after
    have scanned := scan_sum now tried 0 list Option.none 0
    obtain ⟨_, settled⟩ := ngx_int_eq ((visited now tried index peer).currentWeight - total)
    rw [result]
    simp only [currentWeights] at scanned ⊢
    rw [modified]
    simp only [Peer.settle, settled]
    omega

end ServerCore.NginxRoundRobinSelection
