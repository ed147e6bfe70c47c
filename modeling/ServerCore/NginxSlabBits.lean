import ServerCore.BitMask
import ServerCore.NginxSlabChunks

/-!
# The bits of the chunks

The loops that look for a clear bit, and what a written word means for the
chunks of a page of each kind.
-/

namespace ServerCore.NginxSlabBits

open BitMask NginxSlab NginxSlabLayout NginxSlabPages NginxSlabChunks Function

variable {cells : Ref → Page}

/-- The result of a search among `count` bits from `base` on. -/
def FirstClear (word : Word) (base count start : Nat) : Option (Nat × Word) → Prop
  | none => ∀ j, start ≤ j → j < count → word.getLsbD (base + j) = true
  | some (i, m) => i < count ∧ m = (1 : Word) <<< (base + i) ∧ word.getLsbD (base + i) = false

theorem scan_bits_spec (word mask : Word) (base count fuel : Nat) {start : Nat}
    (inMask : ∀ j, mask.getLsbD j = decide (base ≤ j ∧ j < base + count)) (fits : base + count ≤ 64)
    (enough : count < start + fuel) (within : start ≤ count) : FirstClear word base count start
      (Pool.scanBits word mask fuel ((1 : Word) <<< (base + start)) start) := by
  induction fuel generalizing start with
  | zero => omega
  | succ fuel ih =>
    rw [Pool.scanBits]
    by_cases atEnd : start = count
    · have gone : (1 : Word) <<< (base + start) &&& mask = 0 := by
        rw [BitVec.and_comm, eq_zero_iff]
        intro j below
        rw [BitVec.getLsbD_and, inMask]
        by_cases same : base + start < 64
        · rw [get_bit same]
          simp
          omega
        · rw [BitVec.getLsbD_shiftLeft]
          simp
          omega
      rw [if_pos gone, atEnd]
      intro j low high
      omega
    · have below : base + start < 64 := by omega
      have inside : ¬(1 : Word) <<< (base + start) &&& mask = 0 := by
        rw [BitVec.and_comm, and_bit_eq_zero below, inMask]
        simp
        omega
      rw [if_neg inside]
      by_cases clear : word.getLsbD (base + start) = false
      · rw [if_neg (not_not.mpr ((and_bit_eq_zero below).mpr clear))]
        exact ⟨by omega, rfl, clear⟩
      · rw [if_pos (fun isZero => clear ((and_bit_eq_zero below).mp isZero)),
          ← BitVec.shiftLeft_add, add_assoc]
        have rest := ih (show count < start + 1 + fuel by omega) (by omega)
        cases found : Pool.scanBits word mask fuel ((1 : Word) <<< (base + (start + 1))) (start + 1) with
        | none =>
          rw [found] at rest
          intro j low high
          rcases Nat.eq_or_lt_of_le low with rfl | later
          · simpa using clear
          · exact rest j later high
        | some result =>
          rw [found] at rest
          exact rest

theorem scan_word_spec (word : Word) : FirstClear word 0 64 0 (Pool.scanBits word slabBusy 65 1 0) := by
  have inMask : ∀ j, slabBusy.getLsbD j = decide (0 ≤ j ∧ j < 0 + 64) := by
    intro j
    rw [slabBusy, BitVec.getLsbD_allOnes]
    simp
  exact scan_bits_spec word slabBusy 0 64 65 inMask (by decide) (by decide) (by decide)

def FirstClearWord (bitmap : Nat → Word) (start count : Nat) : Option (Nat × Nat × Word) → Prop
  | none => ∀ n, start ≤ n → n < start + count → bitmap n = slabBusy
  | some (n, i, m) => n < start + count ∧ i < 64 ∧ m = (1 : Word) <<< i ∧
      (bitmap n).getLsbD i = false ∧ ∀ k, start ≤ k → k < n → bitmap k = slabBusy

theorem scan_words_spec (bitmap : Nat → Word) (count start : Nat) :
    FirstClearWord bitmap start count (Pool.scanWords bitmap count start) := by
  induction count generalizing start with
  | zero =>
    intro n low high
    omega
  | succ count ih =>
    have later : bitmap start = slabBusy →
        FirstClearWord bitmap start (count + 1) (Pool.scanWords bitmap count (start + 1)) := by
      intro busy
      have rest := ih (start + 1)
      cases found : Pool.scanWords bitmap count (start + 1) with
      | none =>
        rw [found] at rest
        intro n low high
        rcases Nat.eq_or_lt_of_le low with rfl | above
        · exact busy
        · exact rest n above (by omega)
      | some result =>
        rw [found] at rest
        obtain ⟨below, small, isBit, clear, before⟩ := rest
        refine ⟨by omega, small, isBit, clear, ?_⟩
        intro k low high
        rcases Nat.eq_or_lt_of_le low with rfl | above
        · exact busy
        · exact before k above high
    rw [Pool.scanWords]
    by_cases busy : bitmap start = slabBusy
    · rw [if_neg (not_not.mpr busy)]
      exact later busy
    · rw [if_pos busy]
      have here := scan_word_spec (bitmap start)
      cases found : Pool.scanBits (bitmap start) slabBusy 65 1 0 with
      | none =>
        rw [found] at here
        apply later
        rw [slabBusy, eq_all_ones_iff]
        intro j below
        have set := here j (Nat.zero_le _) below
        rwa [zero_add] at set
      | some result =>
        rw [found] at here
        obtain ⟨small, isBit, clear⟩ := here
        rw [zero_add] at isBit clear
        exact ⟨by omega, small, isBit, clear, fun k low high => by omega⟩

/-- One chunk of a page changes its bit, and the page keeps its links. -/
structure Marks (pool after : Pool) (page shift chunk : Nat) (value : Bool) : Prop where
  refits : Refits pool after page
  formatted : Formatted after page shift
  here : taken after page shift chunk = value
  beside : ∀ other < capacity shift, other ≠ chunk →
    taken after page shift other = taken pool page shift other

section Mark

variable {pool : Pool} {page shift chunk : Nat} {value : Bool} {word : Word}

theorem taken_small (pool : Pool) (isSmall : shift < slabExactShift) (chunk : Nat) :
    taken pool page shift chunk =
      (pool.memory (pool.pageAddr page + 8 * (chunk / 64))).getLsbD (chunk % 64) :=
  if_pos isSmall

theorem taken_exact (pool : Pool) (chunk : Nat) :
    taken pool page slabExactShift chunk = (pool.cells (.page page)).slab.getLsbD chunk := rfl

theorem taken_big (pool : Pool) (isBig : slabExactShift < shift) (chunk : Nat) :
    taken pool page shift chunk = (pool.cells (.page page)).slab.getLsbD (slabMapShift + chunk) := by
  rw [taken, if_neg (by omega), if_neg (by omega)]

theorem page_addr_eq (pool : Pool) (page : Nat) : pool.pageAddr page = pool.start + page * 4096 := by
  rw [Pool.pageAddr, Nat.shiftLeft_eq]
  rfl

theorem marks_small (formatted : Formatted pool page shift) (isSmall : shift < slabExactShift)
    (below : chunk < capacity shift) (usable : reserved shift ≤ chunk)
    (written : ∀ j, word.getLsbD j = if j = chunk % 64 then value
      else (pool.memory (pool.pageAddr page + 8 * (chunk / 64))).getLsbD j) :
    Marks pool (pool.setWord (pool.pageAddr page + 8 * (chunk / 64)) word) page shift chunk value := by
  have bound := capacity_le formatted.low
  have bits : ∀ other, taken (pool.setWord (pool.pageAddr page + 8 * (chunk / 64)) word) page shift other =
      if other = chunk then value else taken pool page shift other := by
    intro other
    rw [taken_small _ isSmall, taken_small _ isSmall]
    change (update pool.memory _ word (pool.pageAddr page + 8 * (other / 64))).getLsbD _ = _
    by_cases sameWord : other / 64 = chunk / 64
    · rw [sameWord, update_self, written]
      by_cases same : other = chunk
      · rw [same, if_pos rfl, if_pos rfl]
      · rw [if_neg (by omega), if_neg same]
    · rw [update_of_ne (by omega), if_neg (fun same => sameWord (by rw [same]))]
  refine ⟨⟨rfl, rfl, rfl, ⟨fun _ _ => rfl, rfl, rfl, rfl⟩, ?_⟩, ?_, ?_, ?_⟩
  · intro other differ n small
    apply update_of_ne
    rw [page_addr_eq, page_addr_eq]
    omega
  · refine ⟨formatted.low, formatted.high, formatted.type, formatted.small, formatted.big, ?_, ?_⟩
    · intro isBig
      omega
    · intro other inside
      rw [bits, if_neg (by omega)]
      exact formatted.reserve other inside
  · rw [bits, if_pos rfl]
  · intro other _ differ
    rw [bits, if_neg differ]

theorem marks_exact (formatted : Formatted pool page slabExactShift)
    (resized : Resized pool.cells cells page) (written : ∀ j, (cells (.page page)).slab.getLsbD j =
      if j = chunk then value else (pool.cells (.page page)).slab.getLsbD j) :
    Marks pool (withCells pool cells) page slabExactShift chunk value := by
  have bits : ∀ other, taken (withCells pool cells) page slabExactShift other =
      if other = chunk then value else taken pool page slabExactShift other := by
    intro other
    rw [taken_exact, taken_exact]
    exact written other
  refine ⟨⟨rfl, rfl, rfl, resized, fun _ _ _ _ => rfl⟩, ?_, ?_, ?_⟩
  · refine ⟨formatted.low, formatted.high, resized.type.trans formatted.type, ?_, ?_, ?_, ?_⟩
    · exact fun isSmall => absurd isSmall (lt_irrefl _)
    · exact fun isBig => absurd isBig (lt_irrefl _)
    · exact fun isBig => absurd isBig (lt_irrefl _)
    · intro other inside
      cases inside
  · rw [bits, if_pos rfl]
  · intro other _ differ
    rw [bits, if_neg differ]

theorem shift_mask_get (j : Nat) : slabShiftMask.getLsbD j = decide (j < 4) := by
  rw [show slabShiftMask = ((1 : Word) <<< 4) - 1 by decide, low_bits (by decide)]

theorem marks_big (formatted : Formatted pool page shift) (isBig : slabExactShift < shift)
    (resized : Resized pool.cells cells page) (below : chunk < capacity shift)
    (written : ∀ j, (cells (.page page)).slab.getLsbD j =
      if j = slabMapShift + chunk then value else (pool.cells (.page page)).slab.getLsbD j) :
    Marks pool (withCells pool cells) page shift chunk value := by
  have bits : ∀ other, taken (withCells pool cells) page shift other =
      if other = chunk then value else taken pool page shift other := by
    intro other
    rw [taken_big _ isBig, taken_big _ isBig]
    rw [written]
    by_cases same : other = chunk
    · rw [same, if_pos rfl, if_pos rfl]
    · rw [if_neg (by omega), if_neg same]
  have lower : (cells (.page page)).slab &&& slabShiftMask =
      (pool.cells (.page page)).slab &&& slabShiftMask := by
    apply BitVec.eq_of_getLsbD_eq
    intro j _
    rw [BitVec.getLsbD_and, BitVec.getLsbD_and, shift_mask_get, written]
    by_cases inMask : j < 4
    · rw [if_neg (by unfold slabMapShift; omega)]
    · simp [inMask]
  refine ⟨⟨rfl, rfl, rfl, resized, fun _ _ _ _ => rfl⟩, ?_, ?_, ?_⟩
  · refine ⟨formatted.low, formatted.high, resized.type.trans formatted.type, ?_, ?_, ?_, ?_⟩
    · intro isSmall
      omega
    · exact fun _ => lower.trans (formatted.big isBig)
    · intro _ other beyond
      rw [bits, if_neg (by omega)]
      exact formatted.upper isBig other beyond
    · intro other inside
      unfold reserved at inside
      rw [if_neg (by omega)] at inside
      omega
  · rw [bits, if_pos rfl]
  · intro other _ differ
    rw [bits, if_neg differ]

theorem marks_stat {after : Pool} (marks : Marks pool after page shift chunk value) (slot : Nat)
    (change : Stat → Stat) : Marks pool (after.setStat slot change) page shift chunk value :=
  ⟨⟨marks.refits.start, marks.refits.last, marks.refits.pfree, marks.refits.cells, marks.refits.map⟩,
    ⟨marks.formatted.low, marks.formatted.high, marks.formatted.type, marks.formatted.small,
      marks.formatted.big, marks.formatted.upper, marks.formatted.reserve⟩, marks.here, marks.beside⟩

end Mark

section Fullness

variable {pool : Pool} {page shift : Nat}

theorem capacity_small (low : minShift ≤ shift) (isSmall : shift < slabExactShift) :
    capacity shift = 64 * Pool.mapWords shift := by
  unfold slabExactShift at isSmall
  interval_cases shift <;> rfl

theorem full_small (low : minShift ≤ shift) (isSmall : shift < slabExactShift) : Full pool page shift ↔
      ∀ n < Pool.mapWords shift, pool.memory (pool.pageAddr page + 8 * n) = slabBusy := by
  have size := capacity_small low isSmall
  constructor
  · intro full n below
    rw [slabBusy, eq_all_ones_iff]
    intro j inside
    have set := full (64 * n + j) (by omega)
    rwa [taken_small pool isSmall, show (64 * n + j) / 64 = n by omega,
      show (64 * n + j) % 64 = j by omega] at set
  · intro busy chunk below
    rw [taken_small pool isSmall, busy (chunk / 64) (by omega), slabBusy, BitVec.getLsbD_allOnes]
    exact decide_eq_true (by omega)

theorem full_exact : Full pool page slabExactShift ↔ (pool.cells (.page page)).slab = slabBusy := by
  rw [slabBusy, eq_all_ones_iff]
  exact Iff.rfl

def bigMask (shift : Nat) : Word := (((1 : Word) <<< (pagesize >>> shift)) - 1) <<< slabMapShift

theorem capacity_big (isBig : slabExactShift < shift) : capacity shift ≤ 32 := by
  unfold capacity pagesize
  rw [Nat.shiftRight_eq_div_pow]
  calc 4096 / 2 ^ shift ≤ 4096 / 2 ^ 7 :=
        Nat.div_le_div_left (Nat.pow_le_pow_right (by decide) isBig) (by decide)
    _ = 32 := by decide

theorem big_mask_get (isBig : slabExactShift < shift) (j : Nat) :
    (bigMask shift).getLsbD j = decide (slabMapShift ≤ j ∧ j < slabMapShift + capacity shift) := by
  have bound := capacity_big isBig
  rw [bigMask, BitVec.getLsbD_shiftLeft]
  change (decide (j < 64) && !decide (j < 32) && (((1 : Word) <<< (capacity shift)) - 1).getLsbD (j - 32)) =
    decide (32 ≤ j ∧ j < 32 + capacity shift)
  rw [low_bits (by omega)]
  rw [Bool.eq_iff_iff]
  simp only [Bool.and_eq_true, Bool.not_eq_true', decide_eq_true_eq, decide_eq_false_iff_not]
  omega

theorem map_mask_get {j : Nat} (inside : j < 64) : slabMapMask.getLsbD j = decide (slabMapShift ≤ j) := by
  rw [slabMapMask, BitVec.getLsbD_shiftLeft, BitVec.getLsbD_allOnes]
  change (decide (j < 64) && !decide (j < 32) && decide (j - 32 < 64)) = decide (32 ≤ j)
  rw [Bool.eq_iff_iff]
  simp only [Bool.and_eq_true, Bool.not_eq_true', decide_eq_true_eq, decide_eq_false_iff_not]
  omega

theorem full_big (formatted : Formatted pool page shift) (isBig : slabExactShift < shift) :
    Full pool page shift ↔ (pool.cells (.page page)).slab &&& slabMapMask = bigMask shift := by
  have bound := capacity_big isBig
  constructor
  · intro full
    apply BitVec.eq_of_getLsbD_eq
    intro j inside
    rw [BitVec.getLsbD_and, map_mask_get inside, big_mask_get isBig]
    by_cases low : slabMapShift ≤ j
    · by_cases high : j < slabMapShift + capacity shift
      · have set := full (j - slabMapShift) (by omega)
        rw [taken_big pool isBig, show slabMapShift + (j - slabMapShift) = j by omega] at set
        simp [set, low, high]
      · have clear := formatted.upper isBig (j - slabMapShift) (by omega)
        rw [taken_big pool isBig, show slabMapShift + (j - slabMapShift) = j by omega] at clear
        simp [clear, high]
    · simp [low]
  · intro same chunk below
    have bit := congrArg (fun word => BitVec.getLsbD word (slabMapShift + chunk)) same
    rw [BitVec.getLsbD_and, map_mask_get (by unfold slabMapShift; omega), big_mask_get isBig] at bit
    rw [taken_big pool isBig]
    simpa [below] using bit

end Fullness

end ServerCore.NginxSlabBits
