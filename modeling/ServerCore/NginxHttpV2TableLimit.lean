import ServerCore.NginxHttpV2TableRefinement
import Mathlib.Data.List.Induction

/-!
# The size limit of the HPACK table from its first use

A size update is accepted before there is a table and is remembered in `size`
and `free`; the first insertion sets both fields to 4096 and forgets it. From
then on the entries are those of a queue whose size is the `size` field.
-/

namespace ServerCore.NginxHttpV2TableLimit

open RingBuffer NginxHttpV2Table NginxHttpV2TableLayout NginxHttpV2TableRefinement List

variable {before : List Call} {live : List Nat} {entries : List Header} {table : Fifo}

/-- The records in the slots from `deleted` to `added`, the oldest first. -/
def liveRecords (hpack : Hpack) : List Entry :=
  (List.range (hpack.added - hpack.deleted)).map fun index =>
    hpack.records (hpack.entries ((hpack.deleted + index) % hpack.allocated))

def liveSize (hpack : Hpack) : Nat :=
  ((liveRecords hpack).map fun entry => 32 + entry.nameLen + entry.valueLen).sum

def updateSize (last : Nat) : Call → Nat
  | .add _ => last
  | .size size => size

def lastSize (calls : List Call) : Nat := calls.foldl updateSize ngxHttpV2TableSizeLimit

def isInsertion : Call → Bool
  | .add _ => true
  | .size _ => false

def earlyUpdates (calls : List Call) : List Call := calls.takeWhile fun call => !isInsertion call

/-- The first insertion, if there is one, comes while the limit is the whole table. -/
def BeginsFull (calls : List Call) : Prop :=
  calls.any isInsertion = true → lastSize (earlyUpdates calls) = ngxHttpV2TableSizeLimit

theorem last_size_append (calls : List Call) (call : Call) :
    lastSize (calls ++ [call]) = updateSize (lastSize calls) call := by
  simp [lastSize]

theorem run_append (fuel : Nat) (hpack : Hpack) (calls : List Call) (call : Call) :
    run fuel hpack (calls ++ [call]) =
      (run fuel hpack calls).bind fun middle => applyCall fuel middle call := by
  simp [run, foldlM_append]

theorem early_updates_append (before rest : List Call) (begun : before.any isInsertion = true) :
    earlyUpdates (before ++ rest) = earlyUpdates before := by
  induction before with
  | nil => simp at begun
  | cons call before ih =>
    cases call with
    | add header => rfl
    | size size => exact congrArg (Call.size size :: ·) (ih begun)

theorem early_updates_fresh (before rest : List Call) (header : Header)
    (fresh : before.any isInsertion = false) : earlyUpdates (before ++ .add header :: rest) = before := by
  induction before with
  | nil => rfl
  | cons call before ih =>
    cases call with
    | add other => simp [isInsertion] at fresh
    | size size => exact congrArg (Call.size size :: ·) (ih fresh)

theorem begins_full_append {rest : List Call} (full : BeginsFull (before ++ rest)) :
    BeginsFull before := by
  intro begun
  rw [← early_updates_append before rest begun]
  apply full
  rw [any_append, begun, Bool.true_or]

theorem stored_costs {records : Nat → Entry}
    {start : Nat} (stored : Stored records live entries start) :
    (live.map fun record => 32 + (records record).nameLen + (records record).valueLen).sum =
      total entries := by
  induction live generalizing entries start with
  | nil =>
    cases entries with
    | nil => rfl
    | cons _ _ => exact stored.elim
  | cons record live ih =>
    cases entries with
    | nil => exact stored.elim
    | cons header entries =>
      rw [map_cons, sum_cons, ih stored.2, total_cons, stored.1.nameLen,
        stored.1.valueLen, headerCost]

variable {hpack : Hpack} {fuel : Nat}

theorem live_records_layout {spare : List Nat} {stop : Nat}
    (layout : Layout hpack entries spare live stop) : liveRecords hpack = live.map hpack.records := by
  have spareCount := layout.spareCount
  have liveCount := layout.liveCount
  have count : hpack.added - hpack.deleted = live.length := by omega
  apply ext_getElem
  · simp [liveRecords, count]
  · intro index _ bound
    simp only [length_map] at bound
    have place : (spare ++ live)[spare.length + index]? = some live[index] := by
      rw [getElem?_append_right (by omega)]
      simp [bound]
    have cell := layout.slots.cell _ _ place
    have slot : hpack.added - (spare ++ live).length + (spare.length + index) =
        hpack.deleted + index := by
      rw [length_append]
      omega
    rw [slot] at cell
    simp [liveRecords, cell]

theorem live_size_refines (refines : Refines hpack table) :
    liveSize hpack = total table.entries := by
  obtain ⟨spare, live, stop, layout⟩ := refines.layout
  rw [liveSize, live_records_layout layout, map_map]
  exact stored_costs layout.stored

theorem live_size_limit (refines : Refines hpack table) : liveSize hpack ≤ table.size := by
  have free := refines.free
  rw [live_size_refines refines]
  omega

structure Untouched (hpack : Hpack) : Prop where
  ready : hpack.ready = false
  added : hpack.added = 0
  deleted : hpack.deleted = 0
  reused : hpack.reused = 0
  free : hpack.free = hpack.size

section

variable {hpack : Hpack} (untouched : Untouched hpack)
include untouched

theorem untouched_live_size : liveSize hpack = 0 := by
  simp [liveSize, liveRecords, untouched.added]

theorem untouched_resize {size : Nat} (accepted : size ≤ ngxHttpV2TableSizeLimit) (fuel : Nat) :
    ∃ after, applyCall fuel hpack (.size size) = some after ∧ Untouched after := by
  have free := untouched.free
  have stays : ¬ (hpack.size : Int) - size > hpack.free := by omega
  have ran : evictWhile fuel ((hpack.size : Int) - size) hpack = some hpack := by
    unfold evictWhile
    exact if_neg stays
  refine ⟨{ hpack with
    size := size
    free := ((hpack.free : Int) - ((hpack.size : Int) - size)).toNat }, ?_, ?_⟩
  · simp only [applyCall, ngxHttpV2TableSize, Nat.not_lt.mpr accepted, if_false, ran]
    rfl
  · refine ⟨untouched.ready, untouched.added, untouched.deleted, untouched.reused, ?_⟩
    dsimp only
    omega

theorem untouched_prepared : Refines (prepare hpack) ⟨ngxHttpV2TableSizeLimit, []⟩ := by
  have prepared : prepare hpack =
      { hpack with
        ready := true
        allocated := 64
        size := ngxHttpV2TableSizeLimit
        free := ngxHttpV2TableSizeLimit
        pos := 0 } := by
    simp [prepare, untouched.ready]
  rw [prepared]
  refine ⟨rfl, rfl, Nat.le_refl _, rfl, [], [], 0, holds_empty _ _ _, ?_, ?_, nodup_nil,
    by simp, trivial, holds_empty _ _ _, Nat.zero_le _, rfl, by simp⟩
  · simp [untouched.reused, untouched.deleted]
  · simp [untouched.added, untouched.deleted]

theorem untouched_add (header : Header) (fuel : Nat) :
    ∃ after, applyCall fuel hpack (.add header) = some after ∧
      Refines after (Fifo.add ⟨ngxHttpV2TableSizeLimit, []⟩ header) := by
  obtain ⟨after, ran, refines⟩ :=
    refines_add (untouched_prepared untouched) header fuel (Nat.zero_le _)
  exact ⟨after, (add_prepared fuel hpack header).trans ran, refines⟩

end

theorem fifo_add_size (table : Fifo) (header : Header) : (table.add header).size = table.size := by
  simp only [Fifo.add]
  split_ifs <;> rfl

/-- The state after a history: no table yet, or a queue of the size last asked for. -/
def Tracks (hpack : Hpack) (calls : List Call) : Prop :=
  (Untouched hpack ∧ calls.any isInsertion = false) ∨
    ∃ table, Refines hpack table ∧ table.size = lastSize calls

theorem tracks_limit {calls : List Call} (tracks : Tracks hpack calls) :
    liveSize hpack ≤ lastSize calls := by
  cases tracks with
  | inl early =>
    rw [untouched_live_size early.1]
    exact Nat.zero_le _
  | inr begun =>
    obtain ⟨table, refines, same⟩ := begun
    rw [← same]
    exact live_size_limit refines

theorem tracks_call {call : Call}
    (tracks : Tracks hpack before) (accepted : Accepted call) (fuelled : 128 ≤ fuel)
    (full : before.any isInsertion = false → isInsertion call = true →
      lastSize before = ngxHttpV2TableSizeLimit) :
    ∃ after, applyCall fuel hpack call = some after ∧ Tracks after (before ++ [call]) := by
  cases tracks with
  | inl early =>
    obtain ⟨untouched, fresh⟩ := early
    cases call with
    | add header =>
      obtain ⟨after, ran, refines⟩ := untouched_add untouched header fuel
      refine ⟨after, ran, .inr ⟨_, refines, ?_⟩⟩
      rw [fifo_add_size, last_size_append]
      exact (full fresh rfl).symm
    | size size =>
      obtain ⟨after, ran, still⟩ := untouched_resize untouched accepted fuel
      refine ⟨after, ran, .inl ⟨still, ?_⟩⟩
      rw [any_append, fresh]
      rfl
  | inr begun =>
    obtain ⟨table, refines, same⟩ := begun
    have count := refines_entry_count refines
    obtain ⟨after, ran, refined⟩ := refines_call refines accepted fuel (by omega)
    refine ⟨after, ran, .inr ⟨_, refined, ?_⟩⟩
    rw [last_size_append, ← same]
    cases call with
    | add header => exact fifo_add_size table header
    | size size => rfl

section

variable (entries : Nat → Nat) (records : Nat → Entry) (storage : Nat → Byte)

theorem zeroed_untouched : Untouched (zeroed entries records storage) := ⟨rfl, rfl, rfl, rfl, rfl⟩

theorem tracks_run (fuelled : 128 ≤ fuel) (calls : List Call)
    (accepted : ∀ call ∈ calls, Accepted call) (full : BeginsFull calls) :
    ∃ hpack, run fuel (zeroed entries records storage) calls = some hpack ∧ Tracks hpack calls := by
  induction calls using List.reverseRecOn with
  | nil => exact ⟨_, rfl, .inl ⟨zeroed_untouched entries records storage, rfl⟩⟩
  | append_singleton before call ih =>
    obtain ⟨middle, ran, tracks⟩ := ih
      (fun other mem => accepted other (mem_append_left _ mem))
      (begins_full_append full)
    have last : before.any isInsertion = false → isInsertion call = true →
        lastSize before = ngxHttpV2TableSizeLimit := by
      intro fresh insert
      cases call with
      | add header =>
        rw [← early_updates_fresh before [] header fresh]
        exact full (by simp [isInsertion])
      | size size => exact absurd insert (by simp [isInsertion])
    obtain ⟨after, step, tracked⟩ := tracks_call tracks (accepted call (by simp)) fuelled last
    refine ⟨after, ?_, tracked⟩
    rw [run_append, ran]
    exact step

theorem untouched_run (fuel : Nat) (calls : List Call) (accepted : ∀ call ∈ calls, Accepted call)
    (fresh : calls.any isInsertion = false) :
    ∃ hpack, run fuel (zeroed entries records storage) calls = some hpack ∧ Untouched hpack := by
  induction calls using List.reverseRecOn with
  | nil => exact ⟨_, rfl, zeroed_untouched entries records storage⟩
  | append_singleton before call ih =>
    rw [any_append, Bool.or_eq_false_iff] at fresh
    obtain ⟨middle, ran, untouched⟩ := ih
      (fun other mem => accepted other (mem_append_left _ mem)) fresh.1
    cases call with
    | add header => exact absurd fresh.2 (by simp [isInsertion])
    | size size =>
      obtain ⟨after, step, still⟩ := untouched_resize untouched
        (accepted (.size size) (by simp)) fuel
      refine ⟨after, ?_, still⟩
      rw [run_append, ran]
      exact step

end

theorem first_entries (header : Header) : (Fifo.add ⟨ngxHttpV2TableSizeLimit, []⟩ header).entries =
      if headerCost header > ngxHttpV2TableSizeLimit then [] else [header] := by
  simp only [Fifo.add]
  split_ifs <;> rfl

/-- The limit of the last update is kept in every state of a history whose first
insertion comes when the limit is 4096; after any other first insertion it is
kept only if the entry fits it, or does not fit the table at all. -/
theorem size_limit_honoured (entries : Nat → Nat) (records : Nat → Entry) (storage : Nat → Byte)
    (fuel : Nat) (fuelled : 128 ≤ fuel) :
    (∀ calls : List Call, (∀ call ∈ calls, Accepted call) → BeginsFull calls → ∀ before, before <+: calls →
        ∃ hpack, run fuel (zeroed entries records storage) before = some hpack ∧
          liveSize hpack ≤ lastSize before) ∧
    ∀ (updates : List Call) (header : Header), (∀ call ∈ updates, Accepted call) →
      updates.any isInsertion = false →
      ∃ hpack, run fuel (zeroed entries records storage) (updates ++ [.add header]) = some hpack ∧
        (liveSize hpack ≤ lastSize (updates ++ [.add header]) ↔
          headerCost header ≤ lastSize updates ∨ ngxHttpV2TableSizeLimit < headerCost header) := by
  constructor
  · intro calls accepted full before starts
    obtain ⟨rest, whole⟩ := starts
    rw [← whole] at accepted full
    obtain ⟨hpack, ran, tracks⟩ := tracks_run entries records storage fuelled before
      (fun call mem => accepted call (mem_append_left rest mem))
      (begins_full_append full)
    exact ⟨hpack, ran, tracks_limit tracks⟩
  · intro updates header accepted fresh
    obtain ⟨middle, ran, untouched⟩ :=
      untouched_run entries records storage fuel updates accepted fresh
    obtain ⟨hpack, step, refines⟩ := untouched_add untouched header fuel
    refine ⟨hpack, ?_, ?_⟩
    · rw [run_append, ran]
      exact step
    · rw [live_size_refines refines, first_entries, last_size_append]
      change _ ≤ lastSize updates ↔ _
      split_ifs with large
      · simp [total, large]
      · have alone : total [header] = headerCost header := by simp [total]
        rw [alone]
        omega

theorem size_limit_honoured_two_updates :
    (∃ hpack, run 128 (zeroed (fun _ => 0) (fun _ => ⟨0, 0, 0, 0⟩) fun _ => 0)
        [.size 100, .size 4096, .add (shortHeader "abc" "def")] = some hpack ∧ liveSize hpack ≤ 4096) ∧
    ∃ hpack, run 128 (zeroed (fun _ => 0) (fun _ => ⟨0, 0, 0, 0⟩) fun _ => 0)
        [.size 38, .add (shortHeader "abc" "def")] = some hpack ∧ liveSize hpack ≤ 38 := by
  obtain ⟨kept, first⟩ := size_limit_honoured (fun _ => 0) (fun _ => ⟨0, 0, 0, 0⟩) (fun _ => 0) 128
    (Nat.le_refl _)
  constructor
  · exact kept [.size 100, .size 4096, .add (shortHeader "abc" "def")]
      (by simp [Accepted, ngxHttpV2TableSizeLimit]) (fun _ => rfl) _ (prefix_refl _)
  · obtain ⟨hpack, ran, kept⟩ := first [.size 38] (shortHeader "abc" "def")
      (by simp [Accepted, ngxHttpV2TableSizeLimit]) rfl
    exact ⟨hpack, ran, kept.mpr (.inl (by decide))⟩

/-- An update to zero, then an insertion: the empty header stays, 32 bytes. -/
theorem early_update_forgotten : ¬ ∀ (calls : List Call), (∀ call ∈ calls, Accepted call) →
      ∀ hpack, run 128 (zeroed (fun _ => 0) (fun _ => ⟨0, 0, 0, 0⟩) fun _ => 0) calls =
        some hpack → liveSize hpack ≤ lastSize calls := by
  intro claimed
  have kept := claimed [.size 0, .add ⟨[], []⟩] (by simp [Accepted]) _ rfl
  exact absurd kept (by decide)

end ServerCore.NginxHttpV2TableLimit
