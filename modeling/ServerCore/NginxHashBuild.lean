import ServerCore.NginxHashLayout
import Mathlib.Data.List.GetD

/-!
# Lookup in a static hash

A table is right when the elements of every bucket and the word behind them fit
in the bytes of the bucket, when the buckets are apart, and when a lookup gives
back what was stored.
-/

namespace ServerCore.NginxHashBuild

open BlockMemory NginxHash NginxHashLayout List

variable {size i : Nat} {name : HashKey}
variable {hinit : HashInit} {names : List HashKey}

theorem start_size_pos (hinit : HashInit) (nelts : Nat) : 0 < startSize hinit nelts := by
  unfold startSize
  dsimp only
  split_ifs with large pos
  · omega
  · exact Nat.pos_of_ne_zero pos
  · exact Nat.one_pos

theorem choose_size_pos (some_ : hinit.maxSize ≠ 0) :
    0 < chooseSize hinit names := by
  have start := start_size_pos hinit names.length
  unfold chooseSize
  dsimp only
  cases found : (List.range' (startSize hinit names.length)
      (hinit.maxSize + 1 - startSize hinit names.length)).find? fun size =>
        trySize size (innerSize hinit) names fun _ => 0 with
  | none => exact Nat.pos_of_ne_zero some_
  | some size =>
    have mem := mem_of_find?_eq_some found
    rw [mem_range'_1] at mem
    exact Nat.lt_of_lt_of_le start mem.1

theorem elt_bytes_length (name : HashKey) : (eltBytes name).length = 10 + name.key.length := by
  simp only [eltBytes, length_append, little_endian_length, ngxStrlow, length_map]
  omega

variable {memory : Nat → Byte}

theorem read_elt {addr : Nat}
    (reads : Reads memory (addr, eltBytes name)) (pointer : name.value < 2 ^ 64)
    (short : name.key.length < shortLimit) : readNumber memory 8 addr = name.value ∧
      readNumber memory 2 (addr + 8) = name.key.length ∧
      ∀ i < name.key.length, memory (addr + 10 + i) = (ngxStrlow name.key).getD i 0 := by
  obtain ⟨value, rest⟩ := reads_append reads
  obtain ⟨len, text⟩ := reads_append rest
  rw [little_endian_length] at len
  refine ⟨?_, ?_, ?_⟩
  · rw [read_number 8 value]
    exact Nat.mod_eq_of_lt pointer
  · rw [read_number 2 len]
    exact Nat.mod_eq_of_lt short
  · intro i inside
    have bound : i < (ngxStrlow name.key).length := by
      rw [ngxStrlow, length_map]
      exact inside
    rw [getD_eq_getElem _ _ bound]
    exact text i _ (getElem?_eq_getElem bound)

theorem same_text_iff {text low : Bytes} {len : Nat} (length : low.length = len) :
    (text.length = len ∧ ∀ i < len, text.getD i 0 = low.getD i 0) ↔ low = text := by
  constructor
  · intro both
    apply ext_getElem (by rw [length, both.1])
    intro i inLow inText
    have same := both.2 i (by omega)
    rw [getD_eq_getElem _ _ inText, getD_eq_getElem _ _ inLow] at same
    exact same.symm
  · intro same
    rw [← same]
    exact ⟨length, fun _ _ => rfl⟩

def lookup (names : List HashKey) (text : Bytes) : Nat :=
  ((names.find? fun name => ngxStrlow name.key = text).map HashKey.value).getD 0

theorem find_walk {text : Bytes} {base i size : Nat} (names : List HashKey)
    {test : Nat → Nat} {fuel : Nat} (enough : names.length < fuel)
    (values : ∀ name ∈ names, name.null = false → 0 < name.value ∧ name.value < 2 ^ 64)
    (lengths : ∀ name ∈ names, name.key.length < shortLimit)
    (exact_ : test i + need size names i < shortLimit) (aligned : 8 ∣ base + test i)
    (stored : ∀ plan ∈ placements size test names, plan.bucket = i →
      Reads memory (base + plan.offset, eltBytes plan.name))
    (ended : Reads memory (base + (test i + need size names i), littleEndian 8 0)) :
    findElt memory text fuel (base + test i) = some (lookup (names.filter (inBucket size i)) text) := by
  induction names generalizing test fuel with
  | nil =>
    cases fuel with
    | zero => exact absurd enough (Nat.lt_irrefl 0)
    | succ fuel =>
      have zero : readNumber memory 8 (base + test i) = 0 := read_number 8 ended
      rw [findElt, zero]
      rfl
  | cons name names ih =>
    have valuesRest : ∀ other ∈ names, other.null = false →
        0 < other.value ∧ other.value < 2 ^ 64 :=
      fun other mem => values other (mem_cons_of_mem name mem)
    have lengthsRest : ∀ other ∈ names, other.key.length < shortLimit :=
      fun other mem => lengths other (mem_cons_of_mem name mem)
    simp only [length_cons] at enough
    have same := add_test_exact exact_
    by_cases here : inBucket size i name = true
    · have null : name.null = false := by
        simp only [inBucket, Bool.and_eq_true, Bool.not_eq_true'] at here
        exact here.1
      have bucket : name.keyHash % size = i := by simpa [inBucket, null] using here
      rw [placements_cons names null] at stored
      have first := stored _ mem_cons_self bucket
      dsimp only at first
      rw [bucket] at first
      obtain ⟨pos, pointer⟩ := values name mem_cons_self null
      have short := lengths name mem_cons_self
      obtain ⟨value, len, bytes⟩ := read_elt first pointer short
      cases fuel with
      | zero => cases enough
      | succ fuel =>
        rw [findElt, value, len, if_neg (by omega), filter_cons_of_pos here]
        have compare : (text.length = name.key.length ∧
            ∀ index < name.key.length, text.getD index 0 = memory (base + test i + 10 + index)) ↔
            ngxStrlow name.key = text := by
          rw [← same_text_iff (show (ngxStrlow name.key).length = name.key.length from
            length_map ..)]
          constructor
          · exact fun both => ⟨both.1, fun index inside => (both.2 index inside).trans (bytes index inside)⟩
          · exact fun both =>
              ⟨both.1, fun index inside => (both.2 index inside).trans (bytes index inside).symm⟩
        by_cases found : ngxStrlow name.key = text
        · rw [if_pos (compare.mpr found), lookup, find?_cons_of_pos (by simpa using found)]
          rfl
        · rw [if_neg (fun both => found (compare.mp both))]
          have next : ngxAlign (base + test i + 10 + name.key.length) 8 =
              base + addTest size test name i := by
            have grown : addTest size test name i = test i + hashEltSize name := by
              rw [need_cons, if_pos here] at same
              omega
            rw [grown]
            unfold hashEltSize ngxAlign
            omega
          have step := (elt_size_bounds name).2.2
          rw [next, ih (by omega) valuesRest lengthsRest (by omega)
            (by rw [need_cons, if_pos here] at same; omega)
            (fun plan mem => stored plan (mem_cons_of_mem _ mem))
            (by rw [same]; exact ended), lookup, lookup,
            find?_cons_of_neg (by simpa using found)]
    · have stays : addTest size test name i = test i := by rw [add_test_at, if_neg here]
      have rest : ∀ plan ∈ placements size (addTest size test name) names,
          plan.bucket = i → Reads memory (base + plan.offset, eltBytes plan.name) := by
        intro plan mem
        cases null : name.null with
        | true =>
          rw [placements_null names null] at stored
          have unchanged : addTest size test name = test := by rw [addTest, if_pos null]
          rw [unchanged] at mem
          exact stored plan mem
        | false =>
          rw [placements_cons names null] at stored
          exact stored plan (mem_cons_of_mem _ mem)
      have walked := @ih (addTest size test name) fuel (by omega) valuesRest lengthsRest
        (by omega) (by rw [stays]; exact aligned) rest (by rw [same]; exact ended)
      rw [stays] at walked
      rw [walked, filter_cons_of_neg here]

section Table

variable {hinit : HashInit} {names : List HashKey} {elts line : Nat} {memory : Nat → Byte} {hash : Hash}

/-- The elements of every bucket and its last word lie in the bytes allotted to it. -/
def Fits (hinit : HashInit) (names : List HashKey) (hash : Hash) : Prop :=
  (∀ plan ∈ placements hash.size (fun _ => 0) names,
    plan.offset + hashEltSize plan.name ≤ allotted hinit hash.size names plan.bucket) ∧
  ∀ i < hash.size, hash.buckets i ≠ 0 →
    names.foldl (addTest hash.size) (fun _ => 0) i + 8 ≤ allotted hinit hash.size names i

def Separate (hinit : HashInit) (names : List HashKey) (hash : Hash) : Prop :=
  ∀ i j, i < j → j < hash.size → hash.buckets i ≠ 0 → hash.buckets j ≠ 0 →
    hash.buckets i + allotted hinit hash.size names i ≤ hash.buckets j

def Finds (names : List HashKey) (hash : Hash) : Prop :=
  (∀ name ∈ names, name.null = false →
    ngxHashFind (names.length + 1) hash name.keyHash (ngxStrlow name.key) = some name.value) ∧
  ∀ key text, (∀ name ∈ names, name.null = false → ngxStrlow name.key ≠ text) →
    ngxHashFind (names.length + 1) hash key text = some 0

def Distinct (names : List HashKey) : Prop :=
  ∀ one ∈ names, ∀ two ∈ names, one.null = false → two.null = false →
    ngxStrlow one.key = ngxStrlow two.key → one = two

/-- No count of a build with the given number of buckets overflows. -/
def CountsFit (hinit : HashInit) (names : List HashKey) (size : Nat) : Prop :=
  ∀ i < size, 0 < need size names i → ngxAlign (8 + need size names i) hinit.cacheline < shortLimit

/-- What a build that ends with `NGX_OK` leaves. -/
structure Built (hinit : HashInit) (names : List HashKey) (elts : Nat) (memory : Nat → Byte)
    (hash : Hash) : Prop where
  size : hash.size = chooseSize hinit names
  some_ : 0 < hash.size
  buckets : hash.buckets = (placeBuckets (allotted hinit hash.size names)
    (ngxAlign elts hinit.cacheline) hash.size).2
  placed : ∀ plan ∈ placements hash.size (fun _ => 0) names, hash.buckets plan.bucket ≠ 0
  memory : hash.memory = writeAll memory (hashBlocks hash.size hash.buckets names)

theorem built_of_init (built : ngxHashInit hinit names elts memory = some hash) :
    Built hinit names elts memory hash := by
  unfold ngxHashInit at built
  split_ifs at built with noSize small noRoom
  dsimp only at built
  split_ifs at built with unplaced
  cases built
  refine ⟨rfl, choose_size_pos noSize, rfl, ?_, rfl⟩
  intro plan mem isNull
  exact unplaced ⟨plan, mem, isNull⟩

section

variable (built : Built hinit names elts memory hash)
include built

theorem bucket_at (i : Nat) :
    hash.buckets i = if i < hash.size ∧ allotted hinit hash.size names i ≠ 8 then
      (placeBuckets (allotted hinit hash.size names) (ngxAlign elts hinit.cacheline) i).1 else 0 := by
  rw [built.buckets, place_buckets_at]

theorem bucket_some (some_ : hash.buckets i ≠ 0) :
    i < hash.size ∧ allotted hinit hash.size names i ≠ 8 := by
  rw [bucket_at built] at some_
  by_contra outside
  rw [if_neg outside] at some_
  exact some_ rfl

theorem separate_of_built : Separate hinit names hash := by
  intro i j less inside first second
  have here := (bucket_some built first).2
  have there := (bucket_some built second).2
  rw [built.buckets]
  exact place_buckets_apart less inside here there

theorem need_of_bucket (some_ : hash.buckets i ≠ 0) : 0 < need hash.size names i := by
  have differs := (bucket_some built some_).2
  apply Nat.pos_of_ne_zero
  intro none
  apply differs
  rw [allotted, count_bytes_mod, none]
  rfl

end

theorem placement_of_name (test : Nat → Nat)
    (mem : name ∈ names) (null : name.null = false) :
    ∃ plan ∈ placements size test names, plan.bucket = name.keyHash % size := by
  induction names generalizing test with
  | nil => simp at mem
  | cons first names ih =>
    cases skipped : first.null with
    | true =>
      rw [placements_null names skipped]
      cases mem with
      | head => rw [null] at skipped; cases skipped
      | tail _ later => exact ih test later
    | false =>
      rw [placements_cons names skipped]
      cases mem with
      | head => exact ⟨_, mem_cons_self, rfl⟩
      | tail _ later =>
        obtain ⟨plan, inside, bucket⟩ := ih (addTest size test first) later
        exact ⟨plan, mem_cons_of_mem _ inside, bucket⟩

theorem bucket_of_name (built : Built hinit names elts memory hash)
    (mem : name ∈ names) (null : name.null = false) : hash.buckets (name.keyHash % hash.size) ≠ 0 := by
  obtain ⟨plan, inside, bucket⟩ := placement_of_name (fun _ => 0) mem null
  rw [← bucket]
  exact built.placed plan inside

theorem bucket_of_need (built : Built hinit names elts memory hash)
    (some_ : 0 < need hash.size names i) : hash.buckets i ≠ 0 := by
  obtain ⟨name, mem⟩ : ∃ name, name ∈ names.filter (inBucket hash.size i) := by
    apply exists_mem_of_ne_nil
    intro none
    rw [need, none] at some_
    exact Nat.lt_irrefl 0 some_
  rw [mem_filter] at mem
  obtain ⟨listed, here⟩ := mem
  simp only [inBucket, Bool.and_eq_true, Bool.not_eq_true', decide_eq_true_eq] at here
  rw [← here.2]
  exact bucket_of_name built listed here.1

theorem allotted_short : allotted hinit size names i < shortLimit := by
  simp only [allotted]
  split_ifs
  · decide
  · exact Nat.mod_lt _ (by decide)

theorem last_offset {size i : Nat} (small : need size names i < shortLimit) :
    names.foldl (addTest size) (fun _ => 0) i = need size names i := by
  rw [@count_mod size i (fun _ => 0) names (show 0 < shortLimit by decide), zero_add]
  exact Nat.mod_eq_of_lt small

theorem counts_of_fit (isLine : hinit.cacheline = 2 ^ line) (low : 3 ≤ line) (high : line < 16)
    (built : Built hinit names elts memory hash) (fits : Fits hinit names hash) :
    CountsFit hinit names hash.size := by
  intro i inside some_
  have small : need hash.size names i < shortLimit := by
    have ends : ∀ plan ∈ placements hash.size (fun _ => 0) names, plan.bucket = i →
        plan.offset + hashEltSize plan.name ≤ allotted hinit hash.size names i := by
      intro plan mem bucket
      rw [← bucket]
      exact fits.1 plan mem
    have counted := count_of_fit (show 0 < shortLimit by decide)
      allotted_short ends
    rwa [zero_add] at counted
  have last := fits.2 i inside (bucket_of_need built some_)
  rw [last_offset small] at last
  exact allotted_enough isLine low high some_ small last

section

variable (pos : 0 < hinit.cacheline)
include pos

theorem need_small (some_ : 0 < size)
    (counts : CountsFit hinit names size) (i : Nat) : need size names i < shortLimit := by
  cases Nat.eq_zero_or_pos (need size names i) with
  | inl none =>
    rw [none]
    decide
  | inr used =>
    by_cases inside : i < size
    · have bounds := align_bounds pos (8 + need size names i)
      have exact_ := counts i inside used
      omega
    · have none : names.filter (inBucket size i) = [] := by
        rw [filter_eq_nil_iff]
        intro name _ here
        simp only [inBucket, Bool.and_eq_true, decide_eq_true_eq] at here
        have small := Nat.mod_lt name.keyHash some_
        omega
      rw [need, none] at used
      exact absurd used (Nat.lt_irrefl 0)

theorem placement_inside (some_ : 0 < size) (counts : CountsFit hinit names size) {plan : Placement}
    (mem : plan ∈ placements size (fun _ => 0) names) :
    plan.bucket < size ∧ 0 < need size names plan.bucket ∧
      plan.offset + hashEltSize plan.name ≤ need size names plan.bucket := by
  have small := need_small pos some_ counts plan.bucket
  obtain ⟨own, -, -, bound⟩ := @placement_bounds size (fun _ => 0) names plan (by omega) mem
  have size_ := (elt_size_bounds plan.name).1
  simp only [inBucket, Bool.and_eq_true, decide_eq_true_eq] at own
  refine ⟨?_, by omega, by omega⟩
  rw [← own.2]
  exact Nat.mod_lt _ some_

theorem need_allotted {size i : Nat} (counts : CountsFit hinit names size) (inside : i < size)
    (used : 0 < need size names i) : need size names i + 8 ≤ allotted hinit size names i := by
  have exact_ := counts i inside used
  have bounds := align_bounds pos (8 + need size names i)
  rw [allotted_exact pos used exact_]
  omega

theorem fit_of_counts (built : Built hinit names elts memory hash)
    (counts : CountsFit hinit names hash.size) : Fits hinit names hash := by
  constructor
  · intro plan mem
    obtain ⟨inside, used, bound⟩ := placement_inside pos built.some_ counts mem
    have room := need_allotted pos counts inside used
    omega
  · intro i inside some_
    rw [last_offset (need_small pos built.some_ counts i)]
    exact need_allotted pos counts inside (need_of_bucket built some_)

end

theorem clear_of_buckets (separate : Separate hinit names hash) {i j : Nat} (differ : i ≠ j)
    (inside : i < hash.size) (there : j < hash.size) (some_ : hash.buckets i ≠ 0)
    (other : hash.buckets j ≠ 0) {one two : Block Byte} (lowOne : hash.buckets i ≤ one.1)
    (highOne : one.1 + one.2.length ≤ hash.buckets i + allotted hinit hash.size names i)
    (lowTwo : hash.buckets j ≤ two.1)
    (highTwo : two.1 + two.2.length ≤ hash.buckets j + allotted hinit hash.size names j) :
    Clear one two := by
  unfold Clear
  cases Nat.lt_or_gt_of_ne differ with
  | inl less =>
    have apart := separate i j less there some_ other
    omega
  | inr more =>
    have apart := separate j i more inside other some_
    omega

theorem elt_block_end (name : HashKey) : (eltBytes name).length ≤ hashEltSize name := by
  rw [elt_bytes_length]
  exact (elt_size_bounds name).2.1

theorem blocks_apart (pos : 0 < hinit.cacheline) (built : Built hinit names elts memory hash)
    (counts : CountsFit hinit names hash.size) :
    (hashBlocks hash.size hash.buckets names).Pairwise Clear := by
  have separate := separate_of_built built
  have small := need_small pos built.some_ counts
  have eltInside : ∀ plan ∈ placements hash.size (fun _ => 0) names,
      plan.bucket < hash.size ∧ hash.buckets plan.bucket ≠ 0 ∧
        hash.buckets plan.bucket + plan.offset + (eltBytes plan.name).length ≤
          hash.buckets plan.bucket + need hash.size names plan.bucket ∧
        need hash.size names plan.bucket + 8 ≤ allotted hinit hash.size names plan.bucket := by
    intro plan mem
    obtain ⟨inside, used, bound⟩ := placement_inside pos built.some_ counts mem
    have room := need_allotted pos counts inside used
    have bytes := elt_block_end plan.name
    exact ⟨inside, built.placed plan mem, by omega, room⟩
  have endInside : ∀ i ∈ (List.range hash.size).filter fun i => hash.buckets i ≠ 0,
      i < hash.size ∧ hash.buckets i ≠ 0 ∧
        names.foldl (addTest hash.size) (fun _ => 0) i = need hash.size names i ∧
        need hash.size names i + 8 ≤ allotted hinit hash.size names i := by
    intro i mem
    rw [mem_filter, mem_range, decide_eq_true_eq] at mem
    exact ⟨mem.1, mem.2, last_offset (small i),
      need_allotted pos counts mem.1 (need_of_bucket built mem.2)⟩
  rw [hashBlocks, pairwise_append, pairwise_map, pairwise_map]
  refine ⟨?_, ?_, ?_⟩
  · have apart := @placements_apart hash.size (fun _ => 0) names
      (fun i => by rw [zero_add]; exact small i)
    apply apart.imp_of_mem
    intro one two oneIn twoIn order
    obtain ⟨inside, some_, oneEnd, oneRoom⟩ := eltInside one oneIn
    obtain ⟨there, other, twoEnd, twoRoom⟩ := eltInside two twoIn
    by_cases same : one.bucket = two.bucket
    · have bytes := elt_block_end one.name
      left
      rw [same]
      dsimp only
      omega
    · exact clear_of_buckets separate same inside there some_ other (Nat.le_add_right _ _)
        (by dsimp only; omega) (Nat.le_add_right _ _) (by dsimp only; omega)
  · have nodup : ((List.range hash.size).filter fun i => hash.buckets i ≠ 0).Nodup :=
      nodup_range.filter _
    apply nodup.imp_of_mem
    intro i j iIn jIn differ
    obtain ⟨inside, some_, iLast, iRoom⟩ := endInside i iIn
    obtain ⟨there, other, jLast, jRoom⟩ := endInside j jIn
    rw [iLast, jLast]
    exact clear_of_buckets separate differ inside there some_ other (Nat.le_add_right _ _)
      (by rw [little_endian_length]; omega) (Nat.le_add_right _ _)
      (by rw [little_endian_length]; omega)
  · intro one oneIn two twoIn
    obtain ⟨plan, mem, rfl⟩ := mem_map.mp oneIn
    obtain ⟨i, iIn, rfl⟩ := mem_map.mp twoIn
    obtain ⟨inside, some_, oneEnd, oneRoom⟩ := eltInside plan mem
    obtain ⟨there, other, iLast, iRoom⟩ := endInside i iIn
    rw [iLast]
    by_cases same : plan.bucket = i
    · left
      rw [same] at oneEnd ⊢
      exact oneEnd
    · exact clear_of_buckets separate same inside there some_ other (Nat.le_add_right _ _)
        (by dsimp only; omega) (Nat.le_add_right _ _) (by rw [little_endian_length]; omega)

section

variable (isLine : hinit.cacheline = 2 ^ line) (low : 3 ≤ line) (high : line < 16)
  (built : Built hinit names elts memory hash) (counts : CountsFit hinit names hash.size)
  (values : ∀ name ∈ names, name.null = false → 0 < name.value ∧ name.value < 2 ^ 64)
  (lengths : ∀ name ∈ names, name.key.length < shortLimit)
include isLine low high built counts values lengths

theorem find_bucket (key : Nat) (text : Bytes) : ngxHashFind (names.length + 1) hash key text =
      some (lookup (names.filter (inBucket hash.size (key % hash.size))) text) := by
  obtain ⟨pos, eight, -⟩ := cacheline_divides isLine low high
  obtain ⟨i, isBucket⟩ : ∃ i, i = key % hash.size := ⟨_, rfl⟩
  have inside : i < hash.size := by
    rw [isBucket]
    exact Nat.mod_lt key built.some_
  rw [ngxHashFind, ← isBucket]
  by_cases some_ : hash.buckets i = 0
  · have none : names.filter (inBucket hash.size i) = [] := by
      rw [filter_eq_nil_iff]
      intro name mem here
      simp only [inBucket, Bool.and_eq_true, Bool.not_eq_true', decide_eq_true_eq] at here
      have placed := bucket_of_name built mem here.1
      rw [here.2] at placed
      exact placed some_
    rw [if_pos some_, none]
    rfl
  · rw [if_neg some_]
    have apart := blocks_apart pos built counts
    have small := need_small pos built.some_ counts i
    have aligned : 8 ∣ hash.buckets i := by
      rw [bucket_at built, if_pos (bucket_some built some_)]
      apply place_buckets_aligned
      · exact Nat.dvd_trans eight (align_bounds pos elts).2.2
      · exact allotted_aligned isLine low high hash.size names
    have reads : ∀ block ∈ hashBlocks hash.size hash.buckets names, Reads hash.memory block := by
      intro block mem
      rw [built.memory]
      exact write_all_reads memory _ apart mem
    have stored : ∀ plan ∈ placements hash.size (fun _ => 0) names, plan.bucket = i →
        Reads hash.memory (hash.buckets i + plan.offset, eltBytes plan.name) := by
      intro plan mem bucket
      apply reads
      rw [hashBlocks, mem_append, mem_map, ← bucket]
      exact .inl ⟨plan, mem, rfl⟩
    have ended : Reads hash.memory
        (hash.buckets i + (0 + need hash.size names i), littleEndian 8 0) := by
      apply reads
      rw [hashBlocks, mem_append, mem_map, mem_map, zero_add]
      right
      refine ⟨i, mem_filter.mpr ⟨mem_range.mpr inside, by simpa using some_⟩, ?_⟩
      rw [last_offset small]
    exact @find_walk hash.memory text (hash.buckets i) i hash.size names (fun _ => 0) _
      (Nat.lt_succ_self _) values lengths (by omega) aligned stored ended

theorem finds_of_counts (distinct : Distinct names) : Finds names hash := by
  constructor
  · intro name mem null
    rw [find_bucket isLine low high built counts values lengths, lookup]
    have own : name ∈ names.filter (inBucket hash.size (name.keyHash % hash.size)) :=
      mem_filter.mpr ⟨mem, by simp [inBucket, null]⟩
    cases found : (names.filter (inBucket hash.size (name.keyHash % hash.size))).find? fun other =>
        ngxStrlow other.key = ngxStrlow name.key with
    | none =>
      have differs := find?_eq_none.mp found name own
      simp at differs
    | some other =>
      have sameText : ngxStrlow other.key = ngxStrlow name.key := by
        simpa using find?_some found
      have otherIn := mem_filter.mp (mem_of_find?_eq_some found)
      have otherNull : other.null = false := by
        have inside := otherIn.2
        simp only [inBucket, Bool.and_eq_true, Bool.not_eq_true'] at inside
        exact inside.1
      have same := distinct other otherIn.1 name mem otherNull null sameText
      rw [same]
      rfl
  · intro key text others
    rw [find_bucket isLine low high built counts values lengths, lookup]
    have none : (names.filter (inBucket hash.size (key % hash.size))).find? (fun other =>
        ngxStrlow other.key = text) = none := by
      rw [find?_eq_none]
      intro name mem
      obtain ⟨listed, inside⟩ := mem_filter.mp mem
      simp only [inBucket, Bool.and_eq_true, Bool.not_eq_true'] at inside
      simpa using others name listed inside.1
    rw [none]
    rfl

end

/-- A build that ends with `NGX_OK` is right exactly when no bucket, rounded up to
a cache line, has 65536 bytes or more. Values are not NULL, which ends a bucket. -/
theorem hash_built_iff (isLine : hinit.cacheline = 2 ^ line) (low : 3 ≤ line) (high : line < 16)
    (lengths : ∀ name ∈ names, name.key.length < shortLimit)
    (values : ∀ name ∈ names, name.null = false → 0 < name.value ∧ name.value < 2 ^ 64)
    (distinct : Distinct names) (built : ngxHashInit hinit names elts memory = some hash) :
    (Fits hinit names hash ∧ Separate hinit names hash ∧ Finds names hash) ↔
      CountsFit hinit names (chooseSize hinit names) := by
  have spec := built_of_init built
  have pos := (cacheline_divides isLine low high).1
  rw [← spec.size]
  constructor
  · exact fun right => counts_of_fit isLine low high spec right.1
  · intro counts
    exact ⟨fit_of_counts pos spec counts, separate_of_built spec,
      finds_of_counts isLine low high spec counts values lengths distinct⟩

end Table

def plainName (name : String) (keyHash value : Nat) : HashKey := ⟨false, name.toUTF8.toList, keyHash, value⟩

def threeNames : List HashKey := [plainName "host" 5 100, plainName "Accept" 15 200, plainName "via" 6 300]

theorem hash_built_three_names : ∃ hash,
    ngxHashInit ⟨10, 40, 64⟩ threeNames 1000 (fun _ => 7) = some hash ∧ hash.size = 2 ∧
      Fits ⟨10, 40, 64⟩ threeNames hash ∧ Separate ⟨10, 40, 64⟩ threeNames hash ∧ Finds threeNames hash := by
  obtain ⟨hash, built, isSize⟩ : ∃ hash, ngxHashInit ⟨10, 40, 64⟩ threeNames 1000 (fun _ => 7) = some hash ∧
      hash.size = 2 := by
    apply Option.map_eq_some_iff.mp
    with_unfolding_all decide
  refine ⟨hash, built, isSize, ?_⟩
  apply (@hash_built_iff _ _ _ 6 _ _ rfl (by decide) (by decide) (by with_unfolding_all decide)
    (by decide) ?_ built).mpr
  · unfold CountsFit
    with_unfolding_all decide
  · unfold Distinct
    with_unfolding_all decide

def padding : Bytes := List.replicate 3899 0

def longNames : List HashKey :=
  (List.range 17).map fun k => ⟨false, UInt8.ofNat (97 + k) :: padding, k, k + 1⟩

theorem long_names_distinct : Distinct longNames := by
  intro one oneIn two twoIn _ _ same
  obtain ⟨k, kIn, rfl⟩ := mem_map.mp oneIn
  obtain ⟨j, jIn, rfl⟩ := mem_map.mp twoIn
  rw [mem_range] at kIn jIn
  have first : ngxTolower (UInt8.ofNat (97 + k)) = ngxTolower (UInt8.ofNat (97 + j)) := by
    rw [ngxStrlow, ngxStrlow, map_cons, map_cons, List.cons.injEq] at same
    exact same.1
  have injective : ∀ k < 17, ∀ j < 17,
      ngxTolower (UInt8.ofNat (97 + k)) = ngxTolower (UInt8.ofNat (97 + j)) → k = j := by
    decide
  rw [injective k kIn j jIn first]

theorem long_names_lengths : ∀ name ∈ longNames, name.key.length < shortLimit ∧ 0 < name.value := by
  intro name mem
  obtain ⟨k, kIn, rfl⟩ := mem_map.mp mem
  refine ⟨?_, Nat.succ_pos k⟩
  rw [length_cons, padding, length_replicate]
  decide

set_option maxRecDepth 100000 in
theorem long_names_built : (ngxHashInit ⟨1, 4096, 64⟩ longNames 1000 (fun _ => 0)).isSome = true := by
  decide

set_option maxRecDepth 100000 in
theorem long_names_need : chooseSize ⟨1, 4096, 64⟩ longNames = 1 ∧ need 1 longNames 0 = 66504 := by
  decide

/-- In one bucket the long names take 66512 bytes, of which 1024 are allotted. -/
theorem long_names_overflow :
    Distinct longNames ∧ (∀ name ∈ longNames, name.key.length < shortLimit ∧ 0 < name.value) ∧
      ∃ hash, ngxHashInit ⟨1, 4096, 64⟩ longNames 1000 (fun _ => 0) = some hash ∧
        ¬(Fits ⟨1, 4096, 64⟩ longNames hash ∧ Separate ⟨1, 4096, 64⟩ longNames hash ∧
          Finds longNames hash) := by
  refine ⟨long_names_distinct, long_names_lengths, ?_⟩
  obtain ⟨hash, built⟩ := Option.isSome_iff_exists.mp long_names_built
  refine ⟨hash, built, ?_⟩
  intro right
  have spec := built_of_init built
  obtain ⟨size, bytes⟩ := long_names_need
  have isLine : (⟨1, 4096, 64⟩ : HashInit).cacheline = 2 ^ 6 := rfl
  have counts := counts_of_fit isLine (by decide) (by decide) spec right.1
  rw [spec.size, size] at counts
  have small := counts 0 Nat.one_pos (by rw [bytes]; decide)
  rw [bytes] at small
  exact absurd small (by decide)

end ServerCore.NginxHashBuild
