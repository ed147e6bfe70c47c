import Mathlib.Algebra.GroupWithZero.Nat
import ServerCore.NginxHttpV2Table
import Mathlib.Data.List.Nodup

/-!
# Where the live entries of the HPACK table are

The live entries are listed from the oldest to the newest. Their records stand
in the slots from `deleted` to `added` of one ring, behind the records that wait
for reuse, and their bytes stand back to back before `pos` in the other.
-/

namespace ServerCore.NginxHttpV2TableLayout

open RingBuffer NginxHttpV2Table List Function

variable {stop start : Nat} {header : Header}
variable {entries : List Header} {spare live : List Nat}

def headerBytes (header : Header) : Bytes := header.name ++ header.value

def headerCost (header : Header) : Nat := 32 + header.name.length + header.value.length

def bytesOf (entries : List Header) : Bytes := entries.flatMap headerBytes

def total (entries : List Header) : Nat := (entries.map headerCost).sum

theorem bytes_of_cons (header : Header) (entries : List Header) :
    bytesOf (header :: entries) = headerBytes header ++ bytesOf entries := rfl

theorem bytes_of_append (left right : List Header) :
    bytesOf (left ++ right) = bytesOf left ++ bytesOf right := by
  simp [bytesOf]

theorem total_cons (header : Header) (entries : List Header) :
    total (header :: entries) = headerCost header + total entries := rfl

theorem total_append (left right : List Header) : total (left ++ right) = total left + total right := by
  simp [total]

theorem bytes_of_length_le (entries : List Header) :
    (bytesOf entries).length + 32 * entries.length = total entries := by
  induction entries with
  | nil => rfl
  | cons header entries ih =>
    rw [bytes_of_cons, total_cons, ← ih]
    simp only [length_append, length_cons, headerBytes, headerCost]
    omega

/-- The record of an entry whose bytes begin at the count `start` of bytes ever
stored. -/
structure Located (entry : Entry) (header : Header) (start : Nat) : Prop where
  nameLen : entry.nameLen = header.name.length
  valueLen : entry.valueLen = header.value.length
  nameIn : entry.nameData ≤ ngxHttpV2TableSizeLimit
  valueIn : entry.valueData ≤ ngxHttpV2TableSizeLimit
  nameAt : entry.nameData % ngxHttpV2TableSizeLimit = start % ngxHttpV2TableSizeLimit
  valueAt : entry.valueData % ngxHttpV2TableSizeLimit =
    (start + header.name.length) % ngxHttpV2TableSizeLimit

/-- The records `live` are those of `entries`, one after the other from `start`. -/
def Stored (records : Nat → Entry) : List Nat → List Header → Nat → Prop
  | [], [], _ => True
  | record :: live, header :: entries, start =>
    Located (records record) header start ∧
      Stored records live entries (start + (headerBytes header).length)
  | _, _, _ => False

variable {record : Nat} {hpack : Hpack}

section

variable {records : Nat → Entry} {live : List Nat} {entries : List Header}

theorem stored_length (stored : Stored records live entries start) : live.length = entries.length := by
  induction live generalizing entries start with
  | nil =>
    cases entries with
    | nil => rfl
    | cons _ _ => exact stored.elim
  | cons record live ih =>
    cases entries with
    | nil => exact stored.elim
    | cons header entries => simp [ih stored.2]

theorem stored_update (entry : Entry) (outside : record ∉ live)
    (stored : Stored records live entries start) :
    Stored (update records record entry) live entries start := by
  induction live generalizing entries start with
  | nil =>
    cases entries with
    | nil => trivial
    | cons _ _ => exact stored.elim
  | cons other live ih =>
    cases entries with
    | nil => exact stored.elim
    | cons header entries =>
      simp only [mem_cons, not_or] at outside
      refine ⟨?_, ih outside.2 stored.2⟩
      rw [update_of_ne (Ne.symm outside.1)]
      exact stored.1

theorem stored_append (stored : Stored records live entries start)
    (located : Located (records record) header (start + (bytesOf entries).length)) :
    Stored records (live ++ [record]) (entries ++ [header]) start := by
  induction live generalizing entries start with
  | nil =>
    cases entries with
    | nil => exact ⟨by simpa [bytesOf] using located, trivial⟩
    | cons _ _ => exact stored.elim
  | cons other live ih =>
    cases entries with
    | nil => exact stored.elim
    | cons first entries =>
      refine ⟨stored.1, ih stored.2 ?_⟩
      rw [bytes_of_cons, length_append] at located
      rwa [Nat.add_assoc]

theorem stored_get {start index : Nat} (stored : Stored records live entries start)
    (slot : live[index]? = some record) (found : entries[index]? = some header) :
    Located (records record) header (start + (bytesOf (entries.take index)).length) := by
  induction live generalizing entries start index with
  | nil => simp at slot
  | cons other live ih =>
    cases entries with
    | nil => exact stored.elim
    | cons first entries =>
      cases index with
      | zero =>
        cases slot
        cases found
        simpa [bytesOf] using stored.1
      | succ index =>
        have later := ih stored.2 (by simpa using slot) (by simpa using found)
        rwa [take_succ_cons, bytes_of_cons, length_append, ← Nat.add_assoc]

end

/-- The two rings of a table with the given live entries, `spare` records that
wait for reuse, and `stop` bytes stored so far. -/
structure Layout (hpack : Hpack) (entries : List Header) (spare live : List Nat) (stop : Nat) :
    Prop where
  slots : Holds hpack.entries hpack.allocated hpack.added (spare ++ live)
  spareCount : hpack.reused + spare.length = hpack.deleted
  liveCount : hpack.deleted + live.length = hpack.added
  distinct : (spare ++ live).Nodup
  known : ∀ record ∈ spare ++ live, record < hpack.next
  stored : Stored hpack.records live entries (stop - (bytesOf entries).length)
  bytes : Holds hpack.storage ngxHttpV2TableSizeLimit stop (bytesOf entries)
  posIn : hpack.pos ≤ ngxHttpV2TableSizeLimit
  posAt : hpack.pos % ngxHttpV2TableSizeLimit = stop % ngxHttpV2TableSizeLimit
  some_ : 0 < hpack.allocated

theorem oldest_record (layout : Layout hpack entries spare (record :: live) stop) :
    hpack.entries (hpack.deleted % hpack.allocated) = record := by
  have place : (spare ++ record :: live)[spare.length]? = some record := by simp
  rw [← layout.slots.cell _ _ place]
  have spareCount := layout.spareCount
  have liveCount := layout.liveCount
  rw [length_append]
  congr 2
  omega

theorem layout_evict (layout : Layout hpack (header :: entries) spare (record :: live) stop) :
    Layout (evictOne hpack) entries (spare ++ [record]) live stop ∧
      (evictOne hpack).free = hpack.free + headerCost header := by
  have written := layout.bytes.written
  have stored := layout.stored
  have spareCount := layout.spareCount
  have liveCount := layout.liveCount
  have regroup : spare ++ [record] ++ live = spare ++ record :: live := by simp
  rw [bytes_of_cons, length_append] at written
  constructor
  · refine ⟨?_, ?_, ?_, ?_, ?_, ?_, ?_, layout.posIn, layout.posAt, layout.some_⟩
    · rw [regroup]
      exact layout.slots
    · simp only [evictOne, length_append, length_singleton]
      omega
    · simp only [evictOne]
      simp only [length_cons] at liveCount
      omega
    · rw [regroup]
      exact layout.distinct
    · rw [regroup]
      exact layout.known
    · have later := stored.2
      rw [bytes_of_cons, length_append] at later
      have start : stop - ((headerBytes header).length + (bytesOf entries).length) +
          (headerBytes header).length = stop - (bytesOf entries).length := by
        omega
      rwa [start] at later
    · have rest := holds_drop layout.bytes (headerBytes header).length
      rwa [bytes_of_cons, drop_left] at rest
  · have located := stored.1
    simp only [evictOne, oldest_record layout, located.nameLen, located.valueLen, headerCost]

theorem layout_clear (free : Nat) (layout : Layout hpack entries spare live stop) :
    Layout { hpack with deleted := hpack.added, free := free } [] (spare ++ live) [] stop := by
  have spareCount := layout.spareCount
  have liveCount := layout.liveCount
  refine ⟨?_, ?_, rfl, ?_, ?_, trivial, holds_empty _ _ _, layout.posIn, layout.posAt,
    layout.some_⟩
  · rw [append_nil]
    exact layout.slots
  · rw [length_append]
    dsimp only
    omega
  · rw [append_nil]
    exact layout.distinct
  · rw [append_nil]
    exact layout.known

/-- Room for a new record: what is listed leaves a slot, or it fills the array
with live entries alone, which then grows. -/
def HasRoom (hpack : Hpack) (spare live : List Nat) : Prop :=
  (spare ++ live).length < hpack.allocated ∨ spare = []

theorem layout_take (layout : Layout hpack entries spare live stop) :
    ∃ left, Layout (takeRecord hpack).2 entries left live stop ∧
      (takeRecord hpack).1 ∉ left ++ live ∧ (takeRecord hpack).1 < (takeRecord hpack).2.next ∧
      HasRoom (takeRecord hpack).2 left live := by
  have spareCount := layout.spareCount
  have liveCount := layout.liveCount
  cases spare with
  | nil =>
    have equal : hpack.reused = hpack.deleted := by simpa using spareCount
    simp only [takeRecord, equal, if_true]
    have unknown : hpack.next ∉ [] ++ live := by
      intro mem
      exact Nat.lt_irrefl _ (layout.known _ mem)
    refine ⟨[], ?_, unknown, Nat.lt_succ_self _, .inr rfl⟩
    exact ⟨layout.slots, rfl, liveCount, layout.distinct,
      fun record mem => Nat.lt_succ_of_lt (layout.known record mem), layout.stored,
      layout.bytes, layout.posIn, layout.posAt, layout.some_⟩
  | cons record left =>
    have different : hpack.reused ≠ hpack.deleted := by
      simp only [length_cons] at spareCount
      omega
    have slot : hpack.entries (hpack.reused % hpack.allocated) = record := by
      rw [← layout.slots.cell 0 record (by simp)]
      simp only [length_append, length_cons] at spareCount ⊢
      congr 2
      omega
    simp only [takeRecord, different, if_false, slot]
    have dropped := holds_drop layout.slots 1
    have fits := layout.slots.fits
    have apart := layout.distinct
    simp only [cons_append, nodup_cons, drop_succ_cons, drop_zero,
      length_cons] at apart dropped fits spareCount
    refine ⟨left, ?_, apart.1, layout.known record (by simp), .inl fits⟩
    exact ⟨dropped, by dsimp only; omega, liveCount, apart.2,
      fun other mem => layout.known other (mem_cons_of_mem record mem), layout.stored,
      layout.bytes, layout.posIn, layout.posAt, layout.some_⟩

theorem copy_in_overwrites (storage : Nat → Byte) (pos avail : Nat) (text : Bytes)
    (inside : pos ≤ ngxHttpV2TableSizeLimit) (small : text.length ≤ ngxHttpV2TableSizeLimit)
    (exact_ : avail = ngxHttpV2TableSizeLimit - pos ∨
      (text.length ≤ avail ∧ pos + text.length ≤ ngxHttpV2TableSizeLimit)) :
    Overwrites storage (copyIn storage pos avail text).1 ngxHttpV2TableSizeLimit pos text ∧
      (copyIn storage pos avail text).2 ≤ ngxHttpV2TableSizeLimit ∧
      (copyIn storage pos avail text).2 % ngxHttpV2TableSizeLimit =
        (pos + text.length) % ngxHttpV2TableSizeLimit := by
  by_cases fits : avail ≥ text.length
  · simp only [copyIn, fits, if_true]
    have room : pos + text.length ≤ ngxHttpV2TableSizeLimit := by omega
    exact ⟨overwrites_copy storage room, room, trivial⟩
  · have avail_ : avail = ngxHttpV2TableSizeLimit - pos := by omega
    simp only [copyIn, fits, if_false]
    have headLength : (text.take avail).length = avail := by
      rw [length_take]
      omega
    have tailLength : (text.drop avail).length = text.length - avail := length_drop ..
    have head : Overwrites storage (copyTo storage pos (text.take avail))
        ngxHttpV2TableSizeLimit pos (text.take avail) :=
      overwrites_copy storage (by rw [headLength]; omega)
    have tail : Overwrites (copyTo storage pos (text.take avail))
        (copyTo (copyTo storage pos (text.take avail)) 0 (text.drop avail))
        ngxHttpV2TableSizeLimit (pos + (text.take avail).length) (text.drop avail) := by
      apply overwrites_congr (overwrites_copy _ (by rw [tailLength]; omega))
      rw [headLength, avail_, Nat.add_sub_cancel' inside, Nat.zero_mod, Nat.mod_self]
    have whole := overwrites_append head tail (by rw [headLength, tailLength]; omega)
    rw [take_append_drop] at whole
    refine ⟨whole, by omega, ?_⟩
    have wrapped : pos + text.length = text.length - avail + ngxHttpV2TableSizeLimit := by omega
    rw [wrapped, Nat.add_mod_right]

theorem layout_store (layout : Layout hpack entries spare live stop)
    (outside : record ∉ spare ++ live) (room : total entries + headerCost header ≤ ngxHttpV2TableSizeLimit) :
    Holds (store hpack record header).storage ngxHttpV2TableSizeLimit
        (stop + (headerBytes header).length) (bytesOf (entries ++ [header])) ∧
      Stored (store hpack record header).records (live ++ [record]) (entries ++ [header])
        (stop + (headerBytes header).length - (bytesOf (entries ++ [header])).length) ∧
      (store hpack record header).pos ≤ ngxHttpV2TableSizeLimit ∧
      (store hpack record header).pos % ngxHttpV2TableSizeLimit =
        (stop + (headerBytes header).length) % ngxHttpV2TableSizeLimit := by
  have posIn := layout.posIn
  have posAt := layout.posAt
  have written := layout.bytes.written
  have lengths := bytes_of_length_le entries
  have size : (headerBytes header).length = header.name.length + header.value.length :=
    length_append
  have bounded : header.name.length + header.value.length + 32 ≤ ngxHttpV2TableSizeLimit := by
    simp only [headerCost] at room
    omega
  -- the name goes in at `pos`, the value right behind it
  obtain ⟨nameOver, nameEnd, nameStop⟩ := copy_in_overwrites hpack.storage hpack.pos
    (ngxHttpV2TableSizeLimit - hpack.pos) header.name posIn (by omega) (.inl rfl)
  obtain ⟨valueOver, valueEnd, valueStop⟩ := copy_in_overwrites
    (copyIn hpack.storage hpack.pos (ngxHttpV2TableSizeLimit - hpack.pos) header.name).1
    (copyIn hpack.storage hpack.pos (ngxHttpV2TableSizeLimit - hpack.pos) header.name).2
    ((if ngxHttpV2TableSizeLimit - hpack.pos ≥ header.name.length
      then ngxHttpV2TableSizeLimit - hpack.pos else ngxHttpV2TableSizeLimit) - header.name.length)
    header.value nameEnd (by omega) (by
      simp only [copyIn]
      split_ifs with fits
      · dsimp only
        omega
      · dsimp only
        omega)
  have both := overwrites_append nameOver (overwrites_congr valueOver nameStop)
    (by omega)
  have copied := overwrites_congr both posAt
  refine ⟨?_, ?_, valueEnd, ?_⟩
  · rw [bytes_of_append]
    have appended := holds_append layout.bytes copied (by
      rw [length_append]
      simp only [headerCost] at room
      omega)
    rw [show bytesOf [header] = headerBytes header from append_nil _]
    exact appended
  · have start : stop + (headerBytes header).length - (bytesOf (entries ++ [header])).length =
        stop - (bytesOf entries).length := by
      rw [bytes_of_append, length_append]
      simp only [bytesOf, flatMap_cons, flatMap_nil, append_nil]
      omega
    rw [start]
    apply stored_append
    · apply stored_update _ _ layout.stored
      exact fun mem => outside (mem_append_right spare mem)
    · simp only [store, update_self]
      rw [Nat.sub_add_cancel written]
      refine ⟨rfl, rfl, posIn, nameEnd, posAt, ?_⟩
      rw [nameStop, Nat.add_mod, posAt, ← Nat.add_mod]
  · simp only [store]
    rw [valueStop, Nat.add_mod, nameStop, ← Nat.add_mod, Nat.add_assoc, ← size, Nat.add_mod, posAt,
      ← Nat.add_mod]

theorem grown_slots {entries : Nat → Nat} {alloc deleted : Nat}
    (some_ : 0 < alloc) (full : live.length = alloc)
    (slots : Holds entries alloc (deleted + alloc) live) : Holds (fun slot =>
        if slot < alloc - deleted % alloc then entries (deleted % alloc + slot)
        else if slot < alloc then entries (slot - (alloc - deleted % alloc))
        else entries slot) (alloc + 64) alloc live := by
  refine ⟨by omega, by omega, ?_⟩
  intro index record found
  have bound := (List.getElem?_eq_some_iff.mp found).1
  have cell := slots.cell index record found
  have inRing := Nat.mod_lt deleted some_
  have wide : (alloc - live.length + index) % (alloc + 64) = index := by
    rw [full, Nat.sub_self, Nat.zero_add]
    exact Nat.mod_eq_of_lt (by omega)
  have place : (deleted + alloc - live.length + index) % alloc =
      (deleted % alloc + index) % alloc := by
    rw [full, Nat.add_sub_cancel, Nat.add_mod]
    conv_rhs => rw [Nat.add_mod, Nat.mod_mod]
  rw [place] at cell
  rw [wide, ← cell]
  generalize deleted % alloc = first at inRing ⊢
  by_cases before : index < alloc - first
  · rw [if_pos before, Nat.mod_eq_of_lt (by omega)]
  · rw [if_neg before, if_pos (by omega)]
    have wrapped : first + index = index - (alloc - first) + alloc := by omega
    rw [wrapped, Nat.add_mod_right, Nat.mod_eq_of_lt (by omega)]

theorem layout_grow (hpack : Hpack)
    (slots : Holds hpack.entries hpack.allocated hpack.added (spare ++ live))
    (spareCount : hpack.reused + spare.length = hpack.deleted)
    (liveCount : hpack.deleted + live.length = hpack.added)
    (some_ : 0 < hpack.allocated) (room : HasRoom hpack spare live) :
    Holds (grow hpack).entries (grow hpack).allocated (grow hpack).added (spare ++ live) ∧
      (grow hpack).reused + spare.length = (grow hpack).deleted ∧
      (grow hpack).deleted + live.length = (grow hpack).added ∧
      (spare ++ live).length < (grow hpack).allocated := by
  have fits := slots.fits
  rw [length_append] at fits
  by_cases full : hpack.allocated = hpack.added - hpack.deleted
  · have liveFull : live.length = hpack.allocated := by omega
    have noSpare : spare = [] := eq_nil_of_length_eq_zero (by omega)
    subst noSpare
    rw [← liveCount, liveFull] at slots
    have moved := grown_slots some_ liveFull slots
    simp only [grow, if_pos full]
    refine ⟨moved, rfl, by omega, ?_⟩
    simp only [nil_append]
    omega
  · simp only [grow, if_neg full]
    refine ⟨slots, spareCount, liveCount, ?_⟩
    rcases room with less | none
    · exact less
    · subst none
      simp only [nil_append, length_nil] at fits ⊢
      omega

theorem layout_insert (header : Header) (layout : Layout hpack entries spare live stop)
    (room : total entries + headerCost header ≤ ngxHttpV2TableSizeLimit) : ∃ left record,
      Layout (push (grow (store (takeRecord hpack).2 (takeRecord hpack).1 header))
          (takeRecord hpack).1) (entries ++ [header]) left (live ++ [record])
        (stop + (headerBytes header).length) := by
  obtain ⟨left, taken, outside, known, hasRoom⟩ := layout_take layout
  generalize (takeRecord hpack).1 = record at outside known
  generalize (takeRecord hpack).2 = before at taken known hasRoom
  obtain ⟨bytes, stored, posIn, posAt⟩ := layout_store taken outside room
  obtain ⟨slots, spareCount, liveCount, less⟩ := layout_grow (store before record header)
    taken.slots taken.spareCount taken.liveCount taken.some_ hasRoom
  have keeps : (grow (store before record header)).records = (store before record header).records ∧
      (grow (store before record header)).storage = (store before record header).storage ∧
      (grow (store before record header)).pos = (store before record header).pos ∧
      (grow (store before record header)).next = before.next := by
    simp only [grow]
    split_ifs <;> exact ⟨rfl, rfl, rfl, rfl⟩
  refine ⟨left, record, ?_, spareCount, ?_, ?_, ?_, ?_, ?_, ?_, ?_, ?_⟩
  · rw [← append_assoc]
    have pushed := holds_append slots (overwrites_update _ _ _ record)
      (by rw [length_singleton]; omega)
    simpa [push] using pushed
  · rw [length_append, length_singleton]
    simp only [push]
    omega
  · rw [← append_assoc, nodup_append]
    refine ⟨taken.distinct, nodup_singleton record, ?_⟩
    intro first listed second single
    rw [mem_singleton] at single
    subst single
    exact fun same => outside (same ▸ listed)
  · intro other mem
    simp only [push, keeps.2.2.2]
    rw [← append_assoc, mem_append, mem_singleton] at mem
    rcases mem with listed | same
    · exact taken.known other listed
    · exact same ▸ known
  · simpa only [push, keeps.1] using stored
  · simpa only [push, keeps.2.1] using bytes
  · simpa only [push, keeps.2.2.1] using posIn
  · simpa only [push, keeps.2.2.1] using posAt
  · simp only [push]
    omega

end ServerCore.NginxHttpV2TableLayout
