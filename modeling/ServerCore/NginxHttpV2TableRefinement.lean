import ServerCore.NginxHttpV2TableLayout

/-!
# The HPACK dynamic table is a bounded FIFO

The table of RFC 7541 is a queue of headers with a size: an insertion evicts
from the oldest end until the new entry fits, an entry larger than the size
empties the queue, and a size update evicts until the rest fits.
-/

namespace ServerCore.NginxHttpV2TableRefinement

open RingBuffer NginxHttpV2Table NginxHttpV2TableLayout List

variable {entries : List Header} {spare live : List Nat}
variable {stop size data index : Nat} {table : Fifo} {storage : Nat → Byte} {header : Header}

structure Fifo where
  size : Nat
  entries : List Header

def evictOldest (limit : Nat) : List Header → List Header
  | [] => []
  | header :: entries =>
    if limit < total (header :: entries) then evictOldest limit entries else header :: entries

def Fifo.add (table : Fifo) (header : Header) : Fifo :=
  if headerCost header > table.size then { table with entries := [] }
  else
    { table with
      entries := evictOldest (table.size - headerCost header) table.entries ++ [header] }

def Fifo.resize (table : Fifo) (size : Nat) : Fifo :=
  { size := size, entries := evictOldest size table.entries }

def Fifo.recent (table : Fifo) (index : Nat) : Option Header := table.entries.reverse[index]?

theorem evict_oldest_total (limit : Nat) (entries : List Header) :
    total (evictOldest limit entries) ≤ limit := by
  induction entries with
  | nil => exact Nat.zero_le _
  | cons header entries ih =>
    simp only [evictOldest]
    split_ifs with exceeds
    · exact ih
    · omega

theorem evict_oldest_fits {limit : Nat} (fits : total entries ≤ limit) :
    evictOldest limit entries = entries := by
  cases entries with
  | nil => rfl
  | cons header entries => simp [evictOldest, Nat.not_lt.mpr fits]

structure Refines (hpack : Hpack) (table : Fifo) : Prop where
  ready : hpack.ready = true
  size : hpack.size = table.size
  limit : table.size ≤ ngxHttpV2TableSizeLimit
  free : hpack.free + total table.entries = table.size
  layout : ∃ spare live stop, Layout hpack table.entries spare live stop

variable {hpack : Hpack} {fuel : Nat}

theorem evict_while_layout (needed : Int) (layout : Layout hpack entries spare live stop)
    (free : hpack.free + total entries = size) (enough : needed ≤ size) (fuelled : entries.length ≤ fuel) :
    ∃ after spare live, evictWhile fuel needed hpack = some after ∧
      Layout after (evictOldest (size - needed).toNat entries) spare live stop ∧
      after.free + total (evictOldest (size - needed).toNat entries) = size ∧
      after.size = hpack.size ∧ after.ready = hpack.ready := by
  induction entries generalizing hpack spare live fuel with
  | nil =>
    have stops : ¬ needed > (hpack.free : Int) := by
      simp only [total, map_nil, sum_nil] at free
      omega
    refine ⟨hpack, spare, live, ?_, layout, free, rfl, rfl⟩
    unfold evictWhile
    rw [if_neg stops]
  | cons header entries ih =>
    by_cases more : needed > (hpack.free : Int)
    · cases live with
      | nil => exact layout.stored.elim
      | cons record live =>
        obtain ⟨evicted, freed⟩ := layout_evict layout
        cases fuel with
        | zero => simp at fuelled
        | succ fuel =>
          have exceeds : (size - needed).toNat < total (header :: entries) := by omega
          have rest : (evictOne hpack).free + total entries = size := by
            rw [freed, ← free, total_cons]
            omega
          obtain ⟨after, spareAfter, liveAfter, ran, laid, freeAfter, sizeAfter, readyAfter⟩ :=
            ih evicted rest (by simpa using fuelled)
          refine ⟨after, spareAfter, liveAfter, ?_, ?_, ?_, sizeAfter, readyAfter⟩
          · unfold evictWhile
            rw [if_pos more]
            exact ran
          · rw [evictOldest, if_pos exceeds]
            exact laid
          · rw [evictOldest, if_pos exceeds]
            exact freeAfter
    · have fits : ¬ (size - needed).toNat < total (header :: entries) := by omega
      refine ⟨hpack, spare, live, ?_, ?_, ?_, rfl, rfl⟩
      · unfold evictWhile
        rw [if_neg more]
      · rw [evictOldest, if_neg fits]
        exact layout
      · rw [evictOldest, if_neg fits]
        exact free

theorem layout_set_free {free : Nat} (layout : Layout hpack entries spare live stop) :
    Layout { hpack with size := size, free := free } entries spare live stop :=
  ⟨layout.slots, layout.spareCount, layout.liveCount, layout.distinct, layout.known, layout.stored,
    layout.bytes, layout.posIn, layout.posAt, layout.some_⟩

theorem table_account_layout (refines : Refines hpack table)
    (header : Header) {fuel : Nat} (fuelled : table.entries.length ≤ fuel) : ∃ after spare live stop,
      ngxHttpV2TableAccount fuel hpack (header.name.length + header.value.length) =
        some (decide (headerCost header ≤ table.size), after) ∧ after.ready = true ∧
          after.size = table.size ∧
      (headerCost header ≤ table.size →
        Layout after (evictOldest (table.size - headerCost header) table.entries) spare live stop ∧
        after.free + total (evictOldest (table.size - headerCost header) table.entries) +
          headerCost header = table.size) ∧ (table.size < headerCost header →
        Layout after [] spare live stop ∧ after.free = table.size) := by
  obtain ⟨spare, live, stop, layout⟩ := refines.layout
  have free := refines.free
  have size := refines.size
  have cost : header.name.length + header.value.length + 32 = headerCost header := by
    simp only [headerCost]
    omega
  simp only [ngxHttpV2TableAccount, cost]
  by_cases small : headerCost header ≤ hpack.free
  · have fits : headerCost header ≤ table.size := by omega
    rw [if_pos small]
    refine ⟨{ hpack with free := hpack.free - headerCost header }, spare, live, stop,
      by simp [fits], refines.ready, size, ?_, by omega⟩
    intro _
    rw [evict_oldest_fits (by omega)]
    exact ⟨layout_set_free layout, by dsimp only; omega⟩
  · rw [if_neg small]
    by_cases large : headerCost header > hpack.size
    · have exceeds : ¬ headerCost header ≤ table.size := by omega
      rw [if_pos large]
      refine ⟨{ hpack with deleted := hpack.added, free := hpack.size }, spare ++ live, [], stop,
        by simp [exceeds], refines.ready, size, by omega, ?_⟩
      intro _
      exact ⟨layout_clear hpack.size layout, size⟩
    · have fits : headerCost header ≤ table.size := by omega
      rw [if_neg large]
      have more : (headerCost header : Int) > (hpack.free : Int) := by omega
      obtain ⟨evicted, spareAfter, liveAfter, ran, laid, freeAfter, sizeAfter, readyAfter⟩ :=
        evict_while_layout (headerCost header) layout free (by omega) fuelled
      have limit : ((table.size : Int) - headerCost header).toNat =
          table.size - headerCost header := by
        omega
      have room := evict_oldest_total (table.size - headerCost header) table.entries
      rw [limit] at laid freeAfter
      -- the `do` loop is the `while` loop, whose condition holds at its first test
      cases fuel with
      | zero =>
        unfold evictWhile at ran
        simp [more] at ran
      | succ fuel =>
        unfold evictWhile at ran
        rw [if_pos more] at ran
        change evictWhile fuel (headerCost header) (evictOne hpack) = some evicted at ran
        refine ⟨{ evicted with free := evicted.free - headerCost header }, spareAfter, liveAfter,
          stop, ?_, readyAfter.trans refines.ready, sizeAfter.trans size, ?_, by omega⟩
        · simp only [fits, decide_true]
          rw [ran]
          rfl
        · intro _
          exact ⟨layout_set_free laid, by dsimp only; omega⟩

inductive Call
  | add (header : Header)
  | size (size : Nat)

def applyCall (fuel : Nat) (hpack : Hpack) : Call → Option Hpack
  | .add header => ngxHttpV2AddHeader fuel hpack header
  | .size size => (ngxHttpV2TableSize fuel hpack size).map Prod.snd

def Fifo.apply (table : Fifo) : Call → Fifo
  | .add header => table.add header
  | .size size => table.resize size

def Accepted : Call → Prop
  | .add _ => True
  | .size size => size ≤ ngxHttpV2TableSizeLimit

section

variable {hpack : Hpack} {table : Fifo} (refines : Refines hpack table)
include refines

theorem refines_add (header : Header) (fuel : Nat) (fuelled : table.entries.length ≤ fuel) :
    ∃ after, ngxHttpV2AddHeader fuel hpack header = some after ∧ Refines after (table.add header) := by
  obtain ⟨accounted, spare, live, stop, ran, ready, size, fits, exceeds⟩ :=
    table_account_layout refines header fuelled
  have prepared : prepare hpack = hpack := by simp [prepare, refines.ready]
  have limit := refines.limit
  simp only [ngxHttpV2AddHeader, prepared, ran, Option.bind_eq_bind, Option.bind_some]
  by_cases enough : headerCost header ≤ table.size
  · obtain ⟨layout, free⟩ := fits enough
    obtain ⟨left, record, inserted⟩ := layout_insert header layout (by omega)
    have keeps : ∀ before : Hpack, (push (grow (store (takeRecord before).2 (takeRecord before).1
        header)) (takeRecord before).1).free = before.free ∧
        (push (grow (store (takeRecord before).2 (takeRecord before).1
          header)) (takeRecord before).1).size = before.size ∧
        (push (grow (store (takeRecord before).2 (takeRecord before).1
          header)) (takeRecord before).1).ready = before.ready := by
      intro before
      simp only [push, grow, takeRecord]
      split_ifs <;> exact ⟨rfl, rfl, rfl⟩
    obtain ⟨freeAfter, sizeAfter, readyAfter⟩ := keeps accounted
    simp only [enough, decide_true, if_true]
    refine ⟨_, rfl, ?_⟩
    simp only [Fifo.add, Nat.not_lt.mpr enough, if_false]
    refine ⟨readyAfter.trans ready, sizeAfter.trans size, limit, ?_, left, _, _, inserted⟩
    rw [freeAfter, total_append]
    simp only [total, map_cons, map_nil, sum_cons, sum_nil] at free ⊢
    omega
  · obtain ⟨layout, free⟩ := exceeds (by omega)
    simp only [enough, decide_false, Bool.false_eq_true, if_false]
    refine ⟨_, rfl, ?_⟩
    simp only [Fifo.add, gt_iff_lt, Nat.lt_of_not_le enough, if_true]
    exact ⟨ready, size, limit, by simpa [total] using free, spare, live, stop, layout⟩

theorem refines_resize (accepted : size ≤ ngxHttpV2TableSizeLimit)
    (fuelled : table.entries.length ≤ fuel) :
    ∃ after, ngxHttpV2TableSize fuel hpack size = some (true, after) ∧
    Refines after (table.resize size) := by
  obtain ⟨spare, live, stop, layout⟩ := refines.layout
  have sameSize := refines.size
  obtain ⟨evicted, spareAfter, liveAfter, ran, laid, free, _, ready⟩ :=
    evict_while_layout ((hpack.size : Int) - size) layout refines.free (by omega) fuelled
  have limit : ((table.size : Int) - ((hpack.size : Int) - size)).toNat = size := by omega
  rw [limit] at laid free
  have fits := evict_oldest_total size table.entries
  refine ⟨{ evicted with
    size := size
    free := ((evicted.free : Int) - ((hpack.size : Int) - size)).toNat }, ?_, ?_⟩
  · simp only [ngxHttpV2TableSize, Nat.not_lt.mpr accepted, if_false, ran]
    rfl
  · refine ⟨ready.trans refines.ready, rfl, accepted, ?_, spareAfter, liveAfter, stop,
      layout_set_free laid⟩
    simp only [Fifo.resize]
    omega

theorem refines_call {call : Call}
    (accepted : Accepted call) (fuel : Nat) (fuelled : table.entries.length ≤ fuel) :
    ∃ after, applyCall fuel hpack call = some after ∧ Refines after (table.apply call) := by
  cases call with
  | add header => exact refines_add refines header fuel fuelled
  | size size =>
    obtain ⟨after, ran, refined⟩ := refines_resize refines accepted fuelled
    exact ⟨after, by simp [applyCall, ran], refined⟩

theorem refines_entry_count : table.entries.length ≤ 128 := by
  have lengths := bytes_of_length_le table.entries
  have free := refines.free
  have limit : table.size ≤ 4096 := refines.limit
  omega

theorem live_count : hpack.deleted + table.entries.length = hpack.added := by
  obtain ⟨spare, live, stop, layout⟩ := refines.layout
  rw [← stored_length layout.stored]
  exact layout.liveCount

end

theorem copy_out_ring {len : Nat} (inside : data ≤ ngxHttpV2TableSizeLimit)
    (small : len ≤ ngxHttpV2TableSizeLimit) : copyOut storage data len =
      (List.range len).map fun offset => storage ((data + offset) % ngxHttpV2TableSizeLimit) := by
  simp only [copyOut]
  split_ifs with wraps
  · have parts : len = ngxHttpV2TableSizeLimit - data + (len - (ngxHttpV2TableSizeLimit - data)) := by
      omega
    conv_rhs => rw [parts, range_add, map_append, map_map]
    congr 1
    · apply map_congr_left
      intro offset mem
      rw [mem_range] at mem
      rw [Nat.mod_eq_of_lt (by omega)]
    · apply map_congr_left
      intro offset mem
      rw [mem_range] at mem
      have around : data + (ngxHttpV2TableSizeLimit - data + offset) =
          0 + offset + ngxHttpV2TableSizeLimit := by
        omega
      simp only [Function.comp_apply]
      rw [around, Nat.add_mod_right, Nat.mod_eq_of_lt (by omega)]
  · unfold bytesAt
    apply map_congr_left
    intro offset mem
    rw [mem_range] at mem
    by_cases atEnd : data + offset < ngxHttpV2TableSizeLimit
    · rw [Nat.mod_eq_of_lt atEnd]
    · omega

theorem copy_out_block {older block newer : Bytes}
    (holds : Holds storage ngxHttpV2TableSizeLimit stop (older ++ block ++ newer))
    (inside : data ≤ ngxHttpV2TableSizeLimit) (start : data % ngxHttpV2TableSizeLimit =
      (stop - (block ++ newer).length) % ngxHttpV2TableSizeLimit) :
    copyOut storage data block.length = block := by
  have fits := holds.fits
  simp only [length_append] at fits
  rw [copy_out_ring inside (by omega)]
  apply ext_getElem?
  intro index
  by_cases bound : index < block.length
  · have found : block[index]? = some block[index] := getElem?_eq_getElem bound
    rw [getElem?_map, getElem?_range bound, found, Option.map_some, Option.some.injEq,
      Nat.add_mod, start, ← Nat.add_mod]
    exact holds_block holds found
  · rw [getElem?_eq_none (by simpa using bound), getElem?_eq_none (by omega)]

theorem bytes_of_split (found : entries[index]? = some header) :
    bytesOf entries = bytesOf (entries.take index) ++ headerBytes header ++
      bytesOf (entries.drop (index + 1)) := by
  obtain ⟨bound, same⟩ := List.getElem?_eq_some_iff.mp found
  have split : entries = entries.take index ++ header :: entries.drop (index + 1) := by
    rw [← same, List.getElem_cons_drop, List.take_append_drop]
  conv_lhs => rw [split, bytes_of_append, bytes_of_cons]
  rw [List.append_assoc]

theorem layout_lookup
    (layout : Layout hpack entries spare live stop) (found : entries[index]? = some header) :
    let entry := hpack.records (hpack.entries ((hpack.deleted + index) % hpack.allocated))
    copyOut hpack.storage entry.nameData entry.nameLen = header.name ∧
      copyOut hpack.storage entry.valueData entry.valueLen = header.value := by
  intro entry
  have bound := (List.getElem?_eq_some_iff.mp found).1
  have counts := stored_length layout.stored
  have spareCount := layout.spareCount
  have liveCount := layout.liveCount
  obtain ⟨record, slot⟩ : ∃ record, live[index]? = some record :=
    ⟨_, getElem?_eq_getElem (by omega)⟩
  have cell : hpack.entries ((hpack.deleted + index) % hpack.allocated) = record := by
    have place : (spare ++ live)[spare.length + index]? = some record := by
      rw [getElem?_append_right (by omega)]
      simpa using slot
    rw [← layout.slots.cell _ _ place, length_append]
    congr 2
    omega
  have located := stored_get layout.stored slot found
  have written := layout.bytes.written
  have bytes := layout.bytes
  have split := bytes_of_split found
  have lengths := congrArg List.length split
  have size : (headerBytes header).length = header.name.length + header.value.length :=
    length_append
  simp only [length_append] at lengths
  rw [split] at bytes
  have same : entry = hpack.records record := by
    rw [← cell]
  rw [same, located.nameLen, located.valueLen]
  constructor
  · have name : Holds hpack.storage ngxHttpV2TableSizeLimit stop
        (bytesOf (entries.take index) ++ header.name ++
          (header.value ++ bytesOf (entries.drop (index + 1)))) := by
      simpa [headerBytes] using bytes
    apply copy_out_block name located.nameIn
    rw [located.nameAt]
    simp only [length_append]
    congr 1
    omega
  · have value : Holds hpack.storage ngxHttpV2TableSizeLimit stop
        (bytesOf (entries.take index) ++ header.name ++ header.value ++
          bytesOf (entries.drop (index + 1))) := by
      simpa [headerBytes] using bytes
    apply copy_out_block value located.valueIn
    rw [located.valueAt]
    simp only [length_append]
    congr 1
    omega

theorem static_table_length : ngxHttpV2StaticTable.length = 61 := rfl

theorem refines_get (refines : Refines hpack table) (header : Header) (index : Nat) :
    ngxHttpV2GetIndexedHeader hpack header (62 + index) false = table.recent index := by
  obtain ⟨spare, live, stop, layout⟩ := refines.layout
  have counts := live_count refines
  have outside : ngxHttpV2StaticTable[62 + index - 1]? = none :=
    getElem?_eq_none (by rw [static_table_length]; omega)
  have dynamic : 62 + index - 1 - ngxHttpV2StaticTable.length = index := by
    rw [static_table_length]
    omega
  simp only [ngxHttpV2GetIndexedHeader, show 62 + index ≠ 0 by omega, if_false, outside, dynamic,
    Bool.false_eq_true, Fifo.recent]
  by_cases bound : index < table.entries.length
  · have mirrored : table.entries.reverse[index]? =
        table.entries[table.entries.length - 1 - index]? := getElem?_reverse bound
    have place : hpack.added - index - 1 = hpack.deleted + (table.entries.length - 1 - index) := by
      omega
    obtain ⟨found, same⟩ : ∃ found, table.entries[table.entries.length - 1 - index]? = some found :=
      ⟨_, getElem?_eq_getElem (by omega)⟩
    obtain ⟨name, value⟩ := layout_lookup layout same
    rw [if_pos (by omega), place, name, value, mirrored, same]
  · rw [if_neg (by omega), getElem?_eq_none (by simpa using bound)]

def run (fuel : Nat) (hpack : Hpack) (calls : List Call) : Option Hpack :=
  calls.foldlM (applyCall fuel) hpack

/-- The abstract run; the table of a connection starts empty, with its full size. -/
def runFifo (calls : List Call) : Fifo := calls.foldl Fifo.apply ⟨ngxHttpV2TableSizeLimit, []⟩

theorem refines_run (refines : Refines hpack table)
    {calls : List Call} (accepted : ∀ call ∈ calls, Accepted call) (fuelled : 128 ≤ fuel) :
    ∃ after, run fuel hpack calls = some after ∧ Refines after (calls.foldl Fifo.apply table) := by
  induction calls generalizing hpack table with
  | nil => exact ⟨hpack, rfl, refines⟩
  | cons call calls ih =>
    have count := refines_entry_count refines
    obtain ⟨middle, first, refined⟩ := refines_call refines (accepted call mem_cons_self) fuel
      (by omega)
    obtain ⟨after, rest, last⟩ := ih refined
      (fun other mem => accepted other (mem_cons_of_mem call mem))
    refine ⟨after, ?_, last⟩
    simpa [run, foldlM_cons, first] using rest

theorem refines_prepared (entries : Nat → Nat) (records : Nat → Entry) (storage : Nat → Byte) :
    Refines (prepare (zeroed entries records storage)) ⟨ngxHttpV2TableSizeLimit, []⟩ :=
  ⟨rfl, rfl, Nat.le_refl _, rfl, [], [], 0, holds_empty _ _ _, rfl, rfl, nodup_nil, by simp,
    trivial, holds_empty _ _ _, Nat.zero_le _, rfl, by simp [prepare, zeroed]⟩

theorem add_prepared (fuel : Nat) (hpack : Hpack) (header : Header) :
    ngxHttpV2AddHeader fuel hpack header = ngxHttpV2AddHeader fuel (prepare hpack) header := by
  have twice : prepare (prepare hpack) = prepare hpack := by
    cases ready : hpack.ready <;> simp [prepare, ready]
  simp only [ngxHttpV2AddHeader, twice]

/-- After every sequence of calls that begins with an insertion, lookups, the free
count and the current size are those of the queue, and no call needs more
evictions than there are live entries. -/
theorem dynamic_table_refines_fifo (entries : Nat → Nat) (records : Nat → Entry)
    (storage : Nat → Byte) (first : Header) (calls : List Call)
    (accepted : ∀ call ∈ calls, Accepted call) (fuel : Nat) (fuelled : 128 ≤ fuel) :
    ∃ hpack, run fuel (zeroed entries records storage) (.add first :: calls) = some hpack ∧
      (∀ header index, ngxHttpV2GetIndexedHeader hpack header (62 + index) false =
        (runFifo (.add first :: calls)).recent index) ∧ hpack.size = (runFifo (.add first :: calls)).size ∧
      total (runFifo (.add first :: calls)).entries ≤ hpack.size ∧
      hpack.free = hpack.size - total (runFifo (.add first :: calls)).entries ∧
      hpack.added - hpack.deleted = (runFifo (.add first :: calls)).entries.length ∧ ∀ call, Accepted call →
        ∃ after, applyCall (hpack.added - hpack.deleted) hpack call = some after := by
  have prepared := refines_prepared entries records storage
  obtain ⟨added, addRan, addRefines⟩ := refines_add prepared first fuel (by simp)
  obtain ⟨hpack, ran, refines⟩ := refines_run addRefines accepted fuelled
  have table : calls.foldl Fifo.apply (Fifo.add ⟨ngxHttpV2TableSizeLimit, []⟩ first) =
      runFifo (.add first :: calls) := rfl
  rw [table] at refines
  have counts := live_count refines
  have free := refines.free
  have size := refines.size
  refine ⟨hpack, ?_, refines_get refines, size, by omega, by omega, by omega, ?_⟩
  · rw [run, foldlM_cons]
    change (ngxHttpV2AddHeader fuel (zeroed entries records storage) first).bind _ = _
    rw [add_prepared, addRan]
    exact ran
  · intro call callAccepted
    obtain ⟨after, callRan, _⟩ := refines_call refines callAccepted
      (hpack.added - hpack.deleted) (by omega)
    exact ⟨after, callRan⟩

def shortHeader (name value : String) : Header := ⟨ngxString name, ngxString value⟩

theorem dynamic_table_refines_fifo_resized :
    ∃ hpack, run 128 (zeroed (fun _ => 0) (fun _ => ⟨0, 0, 0, 0⟩) fun _ => 0)
        [.add (shortHeader "abc" "def"), .add (shortHeader "abc" "defg"), .size 50] = some hpack ∧
      ngxHttpV2GetIndexedHeader hpack ⟨[], []⟩ 62 false = some (shortHeader "abc" "defg") ∧
      ngxHttpV2GetIndexedHeader hpack ⟨[], []⟩ 63 false = none ∧ hpack.free = 11 := by
  obtain ⟨hpack, ran, lookup, size, _, free, _⟩ := dynamic_table_refines_fifo (fun _ => 0)
    (fun _ => ⟨0, 0, 0, 0⟩) (fun _ => 0) (shortHeader "abc" "def")
    [.add (shortHeader "abc" "defg"), .size 50]
    (by simp [Accepted, ngxHttpV2TableSizeLimit]) 128 (Nat.le_refl _)
  refine ⟨hpack, ran, ?_, ?_, ?_⟩
  · rw [lookup ⟨[], []⟩ 0]
    decide
  · rw [lookup ⟨[], []⟩ 1]
    decide
  · rw [free, size]
    decide

end ServerCore.NginxHttpV2TableRefinement
