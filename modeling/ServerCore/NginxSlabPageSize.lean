import ServerCore.BitMask
import Mathlib.Tactic.Ring

/-!
# Small chunks on pages of any size

A page of `2 ^ pagesizeShift` bytes that is cut into small chunks begins with the bitmap
of its chunks. The two places of `ngx_slab.c` that know how many chunks the bitmap takes
are modelled here for words of 64 bits: the first allocation from the page, and the test
whether a page from which a chunk was freed is empty. A shift of a word by 64 or more is
not defined by the language; `wide` is whatever the machine makes of it.
-/

namespace ServerCore.NginxSlabPageSize

open BitMask Function

variable {addr i : Nat}

abbrev Word := BitVec 64

def ngxSlabShiftMask : Word := 0x0f

def ngxPagesize (pagesizeShift : Nat) : Nat := 1 <<< pagesizeShift

/-- `ngx_slab_exact_shift`, the logarithm of the page size over the bits of a word. -/
def ngxSlabExactShift (pagesizeShift : Nat) : Nat := pagesizeShift - 6

def shiftLeft (wide : Word → Nat → Word) (word : Word) (count : Nat) : Word :=
  if count < 64 then word <<< count else wide word count

/-- The number `n` of chunks for the bitmap. -/
def mapChunks (pagesizeShift shift : Nat) : Nat :=
  let n := (ngxPagesize pagesizeShift >>> shift) / ((1 <<< shift) * 8)
  if n = 0 then 1 else n

/-- The number `map` of words of the bitmap. -/
def mapWords (pagesizeShift shift : Nat) : Nat := (ngxPagesize pagesizeShift >>> shift) / 64

/-- A page with small chunks: where it starts, its descriptor's `slab`, and the words of
memory by address. -/
structure Page where
  start : Nat
  slab : Word
  memory : Nat → Word

/-- The first allocation from a new page: the page and the chunk that is returned. -/
def allocNewSmall (wide : Word → Nat → Word) (pagesizeShift shift start : Nat)
    (memory : Nat → Word) : Page × Nat :=
  let n := mapChunks pagesizeShift shift
  let map := mapWords pagesizeShift shift
  let memory := update memory start (shiftLeft wide 2 n - 1)
  let memory := (List.range' 1 (map - 1)).foldl (fun memory i => update memory (start + 8 * i) 0) memory
  (⟨start, BitVec.ofNat 64 shift, memory⟩, start + n <<< shift)

/-- How the branch of `ngx_slab_free_locked` for a page with small chunks ends. -/
inductive Freed where
  | wrongChunk
  | alreadyFree
  /-- Another chunk of the page is in use. -/
  | kept (page : Page)
  /-- `ngx_slab_free_pages` is called for the page. -/
  | returned (page : Page)

def freeSmall (wide : Word → Nat → Word) (pagesizeShift : Nat) (page : Page) (p : Nat) : Freed :=
  let shift := (page.slab &&& ngxSlabShiftMask).toNat
  let size := 1 <<< shift
  if p &&& (size - 1) ≠ 0 then .wrongChunk
  else
    let n := (p &&& (ngxPagesize pagesizeShift - 1)) >>> shift
    let m := (1 : Word) <<< (n % 64)
    let bitmap := p - (p &&& (ngxPagesize pagesizeShift - 1))
    let word := page.memory (bitmap + 8 * (n / 64))
    if word &&& m ≠ 0 then
      let memory := update page.memory (bitmap + 8 * (n / 64)) (word &&& ~~~m)
      let n := mapChunks pagesizeShift shift
      if memory bitmap &&& ~~~(shiftLeft wide 1 n - 1) ≠ 0 ∨
          ∃ i < mapWords pagesizeShift shift, 1 ≤ i ∧ memory (bitmap + 8 * i) ≠ 0 then
        .kept { page with memory := memory }
      else .returned { page with memory := memory }
    else .alreadyFree

def busy (start : Nat) (memory : Nat → Word) (chunk : Nat) : Bool :=
    (memory (start + 8 * (chunk / 64))).getLsbD (chunk % 64)

def chunks (pagesizeShift shift : Nat) : Nat := 2 ^ (pagesizeShift - shift)

/-- A bit for each chunk, so an eighth of a byte; the chunk starts before the end of the bitmap. -/
def HoldsBitmap (pagesizeShift shift chunk : Nat) : Prop :=
    chunk * 2 ^ shift < chunks pagesizeShift shift / 8

structure OnlyBusy (pagesizeShift shift start : Nat) (memory : Nat → Word) (chunk : Nat) : Prop where
  inside : chunk < chunks pagesizeShift shift
  outside : ¬HoldsBitmap pagesizeShift shift chunk
  busy : ∀ other < chunks pagesizeShift shift,
    busy start memory other = true ↔ HoldsBitmap pagesizeShift shift other ∨ other = chunk

/-- What the reservation of the bitmap has to achieve for one kind of page. -/
structure ReservesRight (wide : Word → Nat → Word) (pagesizeShift shift : Nat) : Prop where
  allocated : ∀ start memory, 2 ^ pagesizeShift ∣ start →
    let result := allocNewSmall wide pagesizeShift shift start memory
    ∃ chunk, result.2 = start + chunk * 2 ^ shift ∧ OnlyBusy pagesizeShift shift start result.1.memory chunk
  covered : chunks pagesizeShift shift = 64 * mapWords pagesizeShift shift
  returned : ∀ start memory chunk, 2 ^ pagesizeShift ∣ start →
    OnlyBusy pagesizeShift shift start memory chunk →
    ∃ after, freeSmall wide pagesizeShift ⟨start, BitVec.ofNat 64 shift, memory⟩
      (start + chunk * 2 ^ shift) =
      .returned after

section Sizes

variable {pagesizeShift shift chunk : Nat}

theorem pagesize_eq (pagesizeShift : Nat) : ngxPagesize pagesizeShift = 2 ^ pagesizeShift := by
  rw [ngxPagesize, Nat.shiftLeft_eq, one_mul]

section

variable (small : shift + 6 < pagesizeShift)
include small

theorem chunk_count : ngxPagesize pagesizeShift >>> shift = chunks pagesizeShift shift := by
  rw [pagesize_eq, Nat.shiftRight_eq_div_pow, chunks, Nat.pow_div (by omega) (by omega)]

theorem map_words_eq : mapWords pagesizeShift shift = 2 ^ (pagesizeShift - shift - 6) := by
  rw [mapWords, chunk_count small, chunks]
  exact Nat.pow_div (show 6 ≤ pagesizeShift - shift by omega) (by omega)

theorem chunks_covered : chunks pagesizeShift shift = 64 * mapWords pagesizeShift shift := by
  rw [map_words_eq small, chunks, show pagesizeShift - shift =
    6 + (pagesizeShift - shift - 6) by omega, Nat.pow_add,
    Nat.add_sub_cancel_left]

theorem map_chunks_long (long : 2 * shift + 3 ≤ pagesizeShift) :
    mapChunks pagesizeShift shift = 2 ^ (pagesizeShift - 2 * shift - 3) := by
  have size : (1 <<< shift) * 8 = 2 ^ (shift + 3) := by
    rw [Nat.shiftLeft_eq, Nat.one_mul, Nat.pow_add]
  have quotient : chunks pagesizeShift shift / ((1 <<< shift) * 8) =
      2 ^ (pagesizeShift - 2 * shift - 3) := by
    rw [size, chunks, Nat.pow_div (by omega) (by omega)]
    congr 1
    omega
  have pos := Nat.two_pow_pos (pagesizeShift - 2 * shift - 3)
  rw [mapChunks, chunk_count small, quotient]
  exact if_neg (by omega)

theorem map_chunks_short (short : pagesizeShift < 2 * shift + 3) : mapChunks pagesizeShift shift = 1 := by
  have size : (1 <<< shift) * 8 = 2 ^ (shift + 3) := by
    rw [Nat.shiftLeft_eq, Nat.one_mul, Nat.pow_add]
  have fewer : chunks pagesizeShift shift < 2 ^ (shift + 3) := Nat.pow_lt_pow_right (by omega) (by omega)
  rw [mapChunks, chunk_count small, size, Nat.div_eq_of_lt fewer]
  rfl

theorem holds_bitmap_iff : HoldsBitmap pagesizeShift shift chunk ↔
    chunk < mapChunks pagesizeShift shift := by
  have bytes : chunks pagesizeShift shift / 8 = 2 ^ (pagesizeShift - shift - 3) :=
    Nat.pow_div (show 3 ≤ pagesizeShift - shift by omega) (by omega)
  have pos := Nat.two_pow_pos shift
  rw [HoldsBitmap, bytes]
  by_cases long : 2 * shift + 3 ≤ pagesizeShift
  · have split : 2 ^ (pagesizeShift - shift - 3) = 2 ^ (pagesizeShift - 2 * shift - 3) * 2 ^ shift := by
      rw [← pow_add]
      congr 1
      omega
    rw [map_chunks_long small long, split, Nat.mul_lt_mul_right pos]
  · have fewer : 2 ^ (pagesizeShift - shift - 3) < 2 ^ shift := Nat.pow_lt_pow_right (by omega) (by omega)
    have some : 0 < 2 ^ (pagesizeShift - shift - 3) := Nat.two_pow_pos _
    rw [map_chunks_short small (by omega)]
    constructor
    · intro before
      by_contra behind
      have least : 2 ^ shift ≤ chunk * 2 ^ shift := Nat.le_mul_of_pos_left _ (by omega)
      omega
    · intro first
      rw [show chunk = 0 by omega, zero_mul]
      exact some

theorem map_chunks_lt_iff : mapChunks pagesizeShift shift < 64 ↔ pagesizeShift < 2 * shift + 9 := by
  by_cases long : 2 * shift + 3 ≤ pagesizeShift
  · rw [map_chunks_long small long, show 64 = 2 ^ 6 from rfl, Nat.pow_lt_pow_iff_right (by omega)]
    omega
  · rw [map_chunks_short small (by omega)]
    omega

end

theorem map_chunks_inside (low : 3 ≤ shift) (small : shift + 6 < pagesizeShift) :
    mapChunks pagesizeShift shift < chunks pagesizeShift shift := by
  by_cases long : 2 * shift + 3 ≤ pagesizeShift
  · rw [map_chunks_long small long, chunks]
    exact Nat.pow_lt_pow_right (by omega) (by omega)
  · rw [map_chunks_short small (by omega), chunks]
    exact Nat.one_lt_two_pow (by omega)

end Sizes

section Words

variable {wide : Word → Nat → Word} {pagesizeShift shift start chunk : Nat} {memory : Nat → Word}

theorem clear_words {words : List Nat} {memory : Nat → Word} :
    words.foldl (fun memory i => update memory (start + 8 * i) (0 : Word)) memory addr =
      if ∃ i ∈ words, addr = start + 8 * i then 0 else memory addr := by
  induction words generalizing memory with
  | nil => simp
  | cons first rest ih =>
    rw [List.foldl_cons, ih]
    by_cases later : ∃ i ∈ rest, addr = start + 8 * i
    · obtain ⟨i, mem, same⟩ := later
      rw [if_pos ⟨i, mem, same⟩, if_pos ⟨i, List.mem_cons_of_mem _ mem, same⟩]
    · rw [if_neg later]
      by_cases here : addr = start + 8 * first
      · rw [here, update_self, if_pos ⟨first, List.mem_cons_self .., rfl⟩]
      · rw [update_of_ne here, if_neg]
        rintro ⟨i, mem, same⟩
        rcases List.mem_cons.mp mem with rfl | inRest
        · exact here same
        · exact later ⟨i, inRest, same⟩

theorem first_word : (allocNewSmall wide pagesizeShift shift start memory).1.memory start =
    shiftLeft wide 2 (mapChunks pagesizeShift shift) - 1 := by
  refine (clear_words).trans ?_
  rw [if_neg, update_self]
  rintro ⟨i, mem, same⟩
  rw [List.mem_range'_1] at mem
  omega

theorem later_word (pos : 0 < i) (below : i < mapWords pagesizeShift shift) :
    (allocNewSmall wide pagesizeShift shift start memory).1.memory (start + 8 * i) = 0 := by
  refine (clear_words).trans (if_pos ⟨i, ?_, rfl⟩)
  rw [List.mem_range'_1]
  omega

theorem other_word (differ : addr ≠ start) (clear : memory addr = 0) :
    (allocNewSmall wide pagesizeShift shift start memory).1.memory addr = 0 := by
  refine (clear_words).trans ?_
  by_cases cleared : ∃ i ∈ List.range' 1 (mapWords pagesizeShift shift - 1), addr = start + 8 * i
  · rw [if_pos cleared]
  · rw [if_neg cleared, update_of_ne differ, clear]

theorem reserved_bits (few : mapChunks pagesizeShift shift < 64) (j : Nat) :
    (shiftLeft wide 2 (mapChunks pagesizeShift shift) - 1).getLsbD j =
    decide (j < mapChunks pagesizeShift shift + 1) := by
  have doubled : (2 : Word) <<< mapChunks pagesizeShift shift =
      (1 : Word) <<< (mapChunks pagesizeShift shift + 1) := by
    rw [add_comm, BitVec.shiftLeft_add]
    rfl
  rw [shiftLeft, if_pos few, doubled]
  exact low_bits (by omega) j

theorem allocated_busy (small : shift + 6 < pagesizeShift) (few : mapChunks pagesizeShift shift < 64)
    (inside : chunk < chunks pagesizeShift shift) :
    busy start (allocNewSmall wide pagesizeShift shift start memory).1.memory chunk = true ↔
      chunk < mapChunks pagesizeShift shift + 1 := by
  rw [chunks_covered small] at inside
  by_cases early : chunk / 64 = 0
  · rw [busy, early, mul_zero, add_zero, first_word, reserved_bits few, decide_eq_true_eq]
    omega
  · have clear : busy start (allocNewSmall wide pagesizeShift shift start memory).1.memory chunk =
        false := by
      rw [busy, later_word (by omega) (by omega)]
      exact BitVec.getLsbD_zero
    rw [clear]
    constructor
    · nofun
    · intro before
      omega

theorem chunk_offset (aligned : 2 ^ pagesizeShift ∣ start) (below : shift ≤ pagesizeShift)
    (inside : chunk < chunks pagesizeShift shift) :
    (start + chunk * 2 ^ shift) &&& (ngxPagesize pagesizeShift - 1) = chunk * 2 ^ shift := by
  obtain ⟨count, rfl⟩ := aligned
  have page : 2 ^ pagesizeShift = chunks pagesizeShift shift * 2 ^ shift := by
    rw [chunks, ← pow_add]
    congr 1
    omega
  have pos := Nat.two_pow_pos shift
  have within : chunk * 2 ^ shift < 2 ^ pagesizeShift := by
    rw [page]
    exact Nat.mul_lt_mul_of_pos_right inside pos
  rw [pagesize_eq, Nat.and_two_pow_sub_one_eq_mod, Nat.mul_add_mod, Nat.mod_eq_of_lt within]

theorem slab_shift (shift : Nat) : (BitVec.ofNat 64 shift &&& ngxSlabShiftMask).toNat = shift % 16 := by
  rw [BitVec.toNat_and, BitVec.toNat_ofNat]
  have mask : ngxSlabShiftMask.toNat = 2 ^ 4 - 1 := rfl
  rw [mask, Nat.and_two_pow_sub_one_eq_mod]
  omega

theorem chunk_aligned (aligned : 2 ^ pagesizeShift ∣ start) (below : shift ≤ pagesizeShift) :
    (start + chunk * 2 ^ shift) &&& ((1 <<< shift) - 1) = 0 := by
  have divides : 2 ^ shift ∣ start := (Nat.pow_dvd_pow 2 below).trans aligned
  rw [Nat.shiftLeft_eq, one_mul, Nat.and_two_pow_sub_one_eq_mod]
  exact Nat.mod_eq_zero_of_dvd (Nat.dvd_add divides (Nat.dvd_mul_left ..))

theorem free_small_eq (narrow : shift < 16) (aligned : 2 ^ pagesizeShift ∣ start)
    (below : shift ≤ pagesizeShift)
    (inside : chunk < chunks pagesizeShift shift) :
    freeSmall wide pagesizeShift ⟨start, BitVec.ofNat 64 shift, memory⟩ (start + chunk * 2 ^ shift) =
      let word := memory (start + 8 * (chunk / 64))
      if word &&& ((1 : Word) <<< (chunk % 64)) ≠ 0 then
        let cleared := update memory (start + 8 * (chunk / 64)) (word &&& ~~~((1 : Word) <<< (chunk % 64)))
        if cleared start &&& ~~~(shiftLeft wide 1 (mapChunks pagesizeShift shift) - 1) ≠ 0 ∨
            ∃ i < mapWords pagesizeShift shift, 1 ≤ i ∧ cleared (start + 8 * i) ≠ 0 then
          .kept ⟨start, BitVec.ofNat 64 shift, cleared⟩
        else .returned ⟨start, BitVec.ofNat 64 shift, cleared⟩
      else .alreadyFree := by
  have pos := Nat.two_pow_pos shift
  have place : (chunk * 2 ^ shift) >>> shift = chunk := by
    rw [Nat.shiftRight_eq_div_pow, Nat.mul_div_cancel _ pos]
  have base : start + chunk * 2 ^ shift - chunk * 2 ^ shift = start := Nat.add_sub_cancel ..
  simp only [freeSmall, slab_shift, Nat.mod_eq_of_lt narrow, chunk_aligned aligned below,
    chunk_offset aligned below inside,
    place, base, ne_eq, not_true_eq_false, if_false]

theorem bit_of_index {j : Nat} (below : j < 64) :
    busy start memory (64 * i + j) = (memory (start + 8 * i)).getLsbD j := by
  rw [busy, show (64 * i + j) / 64 = i by omega, show (64 * i + j) % 64 = j by omega]

theorem busy_cleared (other : Nat) : busy start (update memory (start + 8 * (chunk / 64))
      (memory (start + 8 * (chunk / 64)) &&& ~~~((1 : Word) <<< (chunk % 64)))) other =
      if other = chunk then false else busy start memory other := by
  have below : chunk % 64 < 64 := Nat.mod_lt _ (by omega)
  by_cases sameWord : other / 64 = chunk / 64
  · rw [busy, sameWord, update_self, clear_bit below]
    by_cases same : other = chunk
    · rw [if_pos same, if_pos (by rw [same])]
    · rw [if_neg same, if_neg (by omega), busy, sameWord]
  · have differ : start + 8 * (other / 64) ≠ start + 8 * (chunk / 64) := by omega
    have other : other ≠ chunk := fun same => sameWord (by rw [same])
    rw [busy, update_of_ne differ, if_neg other, busy]

theorem only_busy_iff (small : shift + 6 < pagesizeShift)
    (only : OnlyBusy pagesizeShift shift start memory chunk)
    {other : Nat} (inside : other < chunks pagesizeShift shift) :
    busy start memory other = true ↔ other < mapChunks pagesizeShift shift ∨ other = chunk := by
  rw [only.busy other inside, holds_bitmap_iff small]

theorem last_returned (small : shift + 6 < pagesizeShift) (few : mapChunks pagesizeShift shift < 64)
    (narrow : shift < 16)
    (aligned : 2 ^ pagesizeShift ∣ start) (only : OnlyBusy pagesizeShift shift start memory chunk) :
    ∃ after, freeSmall wide pagesizeShift ⟨start, BitVec.ofNat 64 shift, memory⟩
      (start + chunk * 2 ^ shift) =
      .returned after := by
  have inside := only.inside
  have covered := chunks_covered small
  have below : chunk % 64 < 64 := Nat.mod_lt _ (by omega)
  have set : memory (start + 8 * (chunk / 64)) &&& ((1 : Word) <<< (chunk % 64)) ≠ 0 := by
    rw [ne_eq, and_bit_eq_zero below]
    have live := (only.busy chunk inside).mpr (.inr rfl)
    rw [busy] at live
    simp [live]
  have cleared : ∀ i < mapWords pagesizeShift shift, ∀ j < 64,
      (update memory (start + 8 * (chunk / 64))
        (memory (start + 8 * (chunk / 64)) &&& ~~~((1 : Word) <<< (chunk % 64)))
          (start + 8 * i)).getLsbD j = true →
      64 * i + j < mapChunks pagesizeShift shift := by
    intro i early j within bit
    rw [← bit_of_index within, busy_cleared] at bit
    by_cases same : 64 * i + j = chunk
    · rw [if_pos same] at bit
      cases bit
    · rw [if_neg same, only_busy_iff small only (by omega)] at bit
      rcases bit with reserved | here
      · exact reserved
      · exact absurd here same
  have map : 0 < mapWords pagesizeShift shift := by
    rw [map_words_eq small]
    exact Nat.two_pow_pos _
  rw [free_small_eq narrow aligned (by omega) inside]
  rw [if_pos set, if_neg]
  · exact ⟨_, rfl⟩
  rintro (first | ⟨i, early, pos, later⟩)
  · apply first
    rw [shiftLeft, if_pos few, eq_zero_iff]
    intro j within
    have low := cleared 0 map j within
    rw [BitVec.getLsbD_and, BitVec.getLsbD_not, low_bits (by omega)]
    by_cases reserved : j < mapChunks pagesizeShift shift
    · simp [reserved]
    · have clear := Bool.eq_false_iff.mpr fun bit => reserved (by simpa using low bit)
      exact (congrArg (fun bit => bit && _) clear).trans (Bool.false_and _)
  · apply later
    rw [eq_zero_iff]
    intro j within
    apply Bool.eq_false_iff.mpr
    intro bit
    have reserved := cleared i early j within bit
    omega

theorem allocated_only (low : 3 ≤ shift) (small : shift + 6 < pagesizeShift)
    (few : mapChunks pagesizeShift shift < 64) :
    OnlyBusy pagesizeShift shift start (allocNewSmall wide pagesizeShift shift start memory).1.memory
      (mapChunks pagesizeShift shift) where
  inside := map_chunks_inside low small
  outside := by
    rw [holds_bitmap_iff small]
    exact lt_irrefl _
  busy := by
    intro other inside
    rw [allocated_busy small few inside, holds_bitmap_iff small]
    omega

theorem many_not_reserved (small : shift + 6 < pagesizeShift) (low : 3 ≤ shift)
    (many : 64 ≤ mapChunks pagesizeShift shift) :
    ¬ReservesRight wide pagesizeShift shift := by
  intro right
  have pos := Nat.two_pow_pos shift
  obtain ⟨chunk, addr, only⟩ := right.allocated 0 (fun _ => 0) (Nat.dvd_zero _)
  have place : mapChunks pagesizeShift shift = chunk := by
    have same : 0 + mapChunks pagesizeShift shift <<< shift = 0 + chunk * 2 ^ shift := addr
    rw [Nat.shiftLeft_eq, zero_add, zero_add] at same
    exact Nat.eq_of_mul_eq_mul_right pos same
  have inside := map_chunks_inside low small
  have covered := chunks_covered small
  have set := (only_busy_iff small only (show 64 < chunks pagesizeShift shift by omega)).mpr (by omega)
  rw [busy, later_word (show 0 < 64 / 64 by decide) (show 64 / 64 < _ by omega)] at set
  exact absurd set (by simp)

theorem wide_not_returned (small : shift + 6 < pagesizeShift) (low : 3 ≤ shift)
    (few : mapChunks pagesizeShift shift < 64)
    (broad : 16 ≤ shift) : ¬ReservesRight wide pagesizeShift shift := by
  intro right
  have only := @allocated_only wide pagesizeShift shift 0 (fun _ => 0) low small few
  have aligned : 2 ^ pagesizeShift ∣ 0 := Nat.dvd_zero _
  obtain ⟨after, freed⟩ := right.returned 0 _ _ aligned only
  have split : 2 ^ shift = 2 ^ (shift - shift % 16 - 6) * 64 * 2 ^ (shift % 16) := by
    rw [show 64 = 2 ^ 6 from rfl, ← pow_add, ← pow_add]
    congr 1
    omega
  have pos := Nat.two_pow_pos (shift % 16)
  have place : (mapChunks pagesizeShift shift * 2 ^ shift) >>> (shift % 16) =
      mapChunks pagesizeShift shift * 2 ^ (shift - shift % 16 - 6) * 64 := by
    rw [Nat.shiftRight_eq_div_pow, split, ← mul_assoc, Nat.mul_div_cancel _ pos, mul_assoc]
  have chunk : 0 < mapChunks pagesizeShift shift := by
    by_contra none
    rw [mapChunks] at none
    split_ifs at none with zero
    · exact none Nat.zero_lt_one
    · exact none (Nat.pos_of_ne_zero zero)
  have beyond : 0 < mapChunks pagesizeShift shift * 2 ^ (shift - shift % 16 - 6) :=
    Nat.mul_pos chunk (Nat.two_pow_pos _)
  have offset := chunk_offset aligned (show shift ≤ pagesizeShift by omega) only.inside
  rw [zero_add] at offset
  rw [freeSmall] at freed
  simp only [slab_shift, zero_add, offset, place, Nat.sub_self] at freed
  rw [Nat.mul_div_cancel _ (by omega : 0 < 64), other_word (by omega) rfl] at freed
  split_ifs at freed with _ set
  exact set BitVec.zero_and

end Words

/-- The bitmap is reserved and an empty page is recognised exactly where fewer than 64
chunks hold the bitmap and the shift fits into the four bits of its mask. -/
theorem reserves_right_iff (wide : Word → Nat → Word) (pagesizeShift shift : Nat) (page : 12 ≤ pagesizeShift)
    (low : 3 ≤ shift) (small : shift < ngxSlabExactShift pagesizeShift) :
    ReservesRight wide pagesizeShift shift ↔ pagesizeShift < 2 * shift + 9 ∧ shift < 16 := by
  have below : shift + 6 < pagesizeShift := by
    unfold ngxSlabExactShift at small
    omega
  constructor
  · intro right
    have few : mapChunks pagesizeShift shift < 64 := by
      by_contra many
      exact many_not_reserved below low (by omega) right
    refine ⟨(map_chunks_lt_iff below).mp few, ?_⟩
    by_contra broad
    exact wide_not_returned below low few (by omega) right
  · rintro ⟨narrowPage, narrow⟩
    have few := (map_chunks_lt_iff below).mpr narrowPage
    refine ⟨?_, chunks_covered below, ?_⟩
    · intro start memory aligned
      refine ⟨mapChunks pagesizeShift shift, ?_, allocated_only low below few⟩
      show start + mapChunks pagesizeShift shift <<< shift = _
      rw [Nat.shiftLeft_eq]
    · intro start memory chunk aligned only
      exact last_returned below few narrow aligned only

def maskedShift (word : Word) (count : Nat) : Word := word <<< (count % 64)

theorem reserves_right_common_page : ReservesRight maskedShift 12 3 :=
  (reserves_right_iff maskedShift 12 3 (by decide) (by decide) (by decide)).mpr (by decide)

/-- Pages of 64 KB with chunks of eight bytes: the bitmap takes 128 chunks, of which one
is marked. -/
theorem large_page_not_reserved : ¬ReservesRight maskedShift 16 3 :=
  many_not_reserved (by decide) (by decide) (by decide)

end ServerCore.NginxSlabPageSize
