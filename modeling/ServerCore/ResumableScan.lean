import Mathlib.Data.List.Basic

/-!
# Scanners that can be interrupted

A scanner reads one symbol after the other and may look back at symbols it has
passed. When its input ends it hands over its registers, and it goes on from
them when more input has arrived. If a step looks at nothing beyond the symbol
it is at, the way the input was cut makes no difference.
-/

namespace ServerCore.ResumableScan

open List

variable {Symbol Registers Stop : Type*} {data : List Symbol} {next : Registers}
variable {syms more : List Symbol} {stops : Stop → Prop}

/-- What one step leaves: registers to go on with, or the reason to stop. -/
inductive Verdict (Registers Stop : Type*) where
  | more (regs : Registers)
  | stop (reason : Stop)

section

variable (holds : Registers → Prop)
include holds

/-- `holds` is true of the registers that a verdict goes on with. -/
def Verdict.GoesOn : Verdict Registers Stop → Prop
  | .more regs => holds regs
  | .stop _ => True

@[simp] theorem goes_on_more (regs : Registers) :
    (Verdict.more regs : Verdict Registers Stop).GoesOn holds ↔ holds regs := Iff.rfl

@[simp] theorem goes_on_stop (reason : Stop) :
    (Verdict.stop reason : Verdict Registers Stop).GoesOn holds := trivial

@[simp] theorem goes_on_ite (cond : Prop) [Decidable cond]
    (yes no : Verdict Registers Stop) : (if cond then yes else no).GoesOn holds ↔
      (cond → yes.GoesOn holds) ∧ (¬ cond → no.GoesOn holds) := by
  by_cases true_ : cond <;> simp [true_]

end

theorem goes_on_imp {weak strong : Registers → Prop} (weaken : ∀ regs, strong regs → weak regs)
    {verdict : Verdict Registers Stop} (goesOn : verdict.GoesOn strong) : verdict.GoesOn weak := by
  cases verdict with
  | more regs => exact weaken regs goesOn
  | stop reason => trivial

/-- A step sees the input by position, its registers, the position it is at
and the symbol there. -/
abbrev Step (Symbol Registers Stop : Type*) :=
  (Nat → Symbol) → Registers → Nat → Symbol → Verdict Registers Stop

variable {step : Step Symbol Registers Stop}

def scan (step : Step Symbol Registers Stop) (input : Nat → Symbol) (regs : Registers)
    (pos : Nat) : List Symbol → Verdict Registers Stop × Nat
  | [] => (.more regs, pos)
  | symbol :: syms =>
    match step input regs pos symbol with
    | .more next => scan step input next (pos + 1) syms
    | .stop reason => (.stop reason, pos)

/-- `invariant` holds of the registers before every step, and under it a step
depends on the input only up to its own position. -/
structure Causal (step : Step Symbol Registers Stop) (inv : Registers → Nat → Prop) : Prop where
  kept : ∀ (input : Nat → Symbol) (regs : Registers) (pos : Nat) (symbol : Symbol),
    inv regs pos →
      (step input regs pos symbol).GoesOn fun next => inv next (pos + 1)
  local_ : ∀ (left right : Nat → Symbol) (regs : Registers) (pos : Nat) (symbol : Symbol),
    inv regs pos → (∀ index ≤ pos, left index = right index) →
      step left regs pos symbol = step right regs pos symbol

theorem scan_append (step : Step Symbol Registers Stop) (input : Nat → Symbol) (regs : Registers)
    (pos : Nat) (first second : List Symbol) : scan step input regs pos (first ++ second) =
      match scan step input regs pos first with
      | (.more next, reached) => scan step input next reached second
      | (.stop reason, reached) => (.stop reason, reached) := by
  induction first generalizing regs pos with
  | nil => rfl
  | cons symbol first ih =>
    rw [cons_append, scan, scan]
    cases step input regs pos symbol with
    | more next => exact ih next (pos + 1)
    | stop reason => rfl

variable {input : Nat → Symbol} {regs : Registers} {pos reached : Nat} {syms : List Symbol}
  {filler : Symbol} {goes : Registers → Nat → Prop}

theorem scan_more_position
    (more : scan step input regs pos syms = (.more next, reached)) : reached = pos + syms.length := by
  induction syms generalizing regs pos with
  | nil =>
    simp only [scan, Prod.mk.injEq] at more
    rw [← more.2, length_nil, Nat.add_zero]
  | cons symbol syms ih =>
    rw [scan] at more
    cases verdict : step input regs pos symbol with
    | stop reason => simp [verdict] at more
    | more middle =>
      rw [verdict] at more
      rw [ih more, length_cons]
      omega

section Causality

variable {step : Step Symbol Registers Stop} {inv : Registers → Nat → Prop}
variable (causal : Causal step inv)

include causal

theorem scan_kept (holds : inv regs pos)
    (more : scan step input regs pos syms = (.more next, reached)) : inv next reached := by
  induction syms generalizing regs pos with
  | nil =>
    simp only [scan, Prod.mk.injEq, Verdict.more.injEq] at more
    rw [← more.1, ← more.2]
    exact holds
  | cons symbol syms ih =>
    rw [scan] at more
    cases verdict : step input regs pos symbol with
    | stop reason => simp [verdict] at more
    | more middle =>
      have first := causal.kept input regs pos symbol holds
      rw [verdict] at first more
      exact ih first more

theorem scan_local {left right : Nat → Symbol} (holds : inv regs pos)
    (same : ∀ index < pos + syms.length, left index = right index) :
    scan step left regs pos syms = scan step right regs pos syms := by
  induction syms generalizing regs pos with
  | nil => rfl
  | cons symbol syms ih =>
    rw [length_cons] at same
    have first : step left regs pos symbol = step right regs pos symbol :=
      causal.local_ _ _ _ _ _ holds fun index bound => same index (by omega)
    rw [scan, scan, first]
    cases verdict : step right regs pos symbol with
    | stop reason => rfl
    | more next =>
      have kept := causal.kept right regs pos symbol holds
      rw [verdict] at kept
      exact ih kept fun index bound => same index (by omega)

end Causality

def readAt (filler : Symbol) (data : List Symbol) (index : Nat) : Symbol := data.getD index filler

theorem read_at_append {data : List Symbol} {index : Nat}
    (bound : index < data.length) : readAt filler (data ++ more) index = readAt filler data index := by
  simp [readAt, getElem?_append_left bound]

def scanRest (step : Step Symbol Registers Stop) (filler : Symbol) (regs : Registers)
    (pos : Nat) (data : List Symbol) : Verdict Registers Stop × Nat :=
  scan step (readAt filler data) regs pos (data.drop pos)

section Resume

variable {step : Step Symbol Registers Stop} {inv : Registers → Nat → Prop}
variable (causal : Causal step inv) (filler : Symbol)

include causal

theorem scan_rest_append (holds : inv regs pos) (inside : pos ≤ data.length) :
    scanRest step filler regs pos (data ++ more) =
      match scanRest step filler regs pos data with
      | (.more next, reached) => scanRest step filler next reached (data ++ more)
      | (.stop reason, reached) => (.stop reason, reached) := by
  have early : scan step (readAt filler (data ++ more)) regs pos (data.drop pos) =
      scanRest step filler regs pos data := by
    apply scan_local causal holds
    intro index bound
    rw [length_drop] at bound
    exact read_at_append (by omega)
  rw [scanRest, drop_append_of_le_length inside, scan_append, early]
  generalize ended : scanRest step filler regs pos data = outcome
  obtain ⟨verdict, reached⟩ := outcome
  cases verdict with
  | stop reason => rfl
  | more next =>
    have arrived := scan_more_position ended
    rw [length_drop, Nat.add_sub_of_le inside] at arrived
    change scan _ _ next reached more = scanRest step filler next reached (data ++ more)
    rw [scanRest, arrived, drop_left]

theorem scan_rest_kept (holds : inv regs pos) (inside : pos ≤ data.length)
    (more : scanRest step filler regs pos data = (.more next, reached)) :
    inv next reached ∧ reached = data.length := by
  refine ⟨scan_kept causal holds more, ?_⟩
  have arrived := scan_more_position more
  rwa [length_drop, Nat.add_sub_of_le inside] at arrived

end Resume

/-- Scanning piece after piece. The outcome comes with the registers and the
position from which its last scan has set out. -/
def feed (step : Step Symbol Registers Stop) (filler : Symbol) (regs : Registers)
    (pos : Nat) (data : List Symbol) :
    List (List Symbol) → (Registers × Nat) × (Verdict Registers Stop × Nat)
  | [] => ((regs, pos), scanRest step filler regs pos data)
  | piece :: pieces =>
    match scanRest step filler regs pos data with
    | (.more next, reached) => feed step filler next reached (data ++ piece) pieces
    | (.stop reason, reached) => ((regs, pos), (.stop reason, reached))

theorem feed_verdict {inv : Registers → Nat → Prop}
    (causal : Causal step inv) (filler : Symbol) (pieces : List (List Symbol)) (holds : inv regs pos)
    (inside : pos ≤ data.length) : (feed step filler regs pos data pieces).2 =
      scanRest step filler regs pos (data ++ pieces.flatten) := by
  induction pieces generalizing regs pos data with
  | nil => rw [flatten_nil, append_nil, feed]
  | cons piece pieces ih =>
    rw [feed, flatten_cons, scan_rest_append causal filler holds inside]
    generalize ended : scanRest step filler regs pos data = outcome
    obtain ⟨verdict, reached⟩ := outcome
    cases verdict with
    | stop reason => rfl
    | more next =>
      obtain ⟨kept, arrived⟩ := scan_rest_kept causal filler holds inside ended
      have started : reached ≤ (data ++ piece).length := by
        rw [length_append]
        omega
      rw [← append_assoc]
      exact ih kept started

theorem feed_last (step : Step Symbol Registers Stop) (filler : Symbol) (regs : Registers)
    (pos : Nat) (data : List Symbol) (pieces : List (List Symbol)) :
    ∃ rest, (feed step filler regs pos data pieces).2 =
      scanRest step filler (feed step filler regs pos data pieces).1.1
        (feed step filler regs pos data pieces).1.2 rest := by
  induction pieces generalizing regs pos data with
  | nil => exact ⟨data, rfl⟩
  | cons piece pieces ih =>
    rw [feed]
    generalize ended : scanRest step filler regs pos data = outcome
    obtain ⟨verdict, reached⟩ := outcome
    cases verdict with
    | more next => exact ih next reached (data ++ piece)
    | stop reason => exact ⟨data, ended.symm⟩

section Kept

variable {step : Step Symbol Registers Stop} {holds : Registers → Prop}
variable (kept : ∀ (input : Nat → Symbol) (regs : Registers) (pos : Nat) (symbol : Symbol),
  holds regs → (step input regs pos symbol).GoesOn holds)

include kept

theorem scan_goes_on (start : holds regs) :
    (scan step input regs pos syms).1.GoesOn holds := by
  induction syms generalizing regs pos with
  | nil => exact start
  | cons symbol syms ih =>
    have first := kept input regs pos symbol start
    rw [scan]
    cases verdict : step input regs pos symbol with
    | stop reason => trivial
    | more next =>
      rw [verdict] at first
      exact ih first

theorem scan_stopped {reason : Stop} (start : holds regs)
    (stopped : scan step input regs pos syms = (.stop reason, reached)) :
    ∃ last place symbol, holds last ∧ step input last place symbol = .stop reason := by
  induction syms generalizing regs pos with
  | nil => simp [scan] at stopped
  | cons symbol syms ih =>
    have first := kept input regs pos symbol start
    rw [scan] at stopped
    cases verdict : step input regs pos symbol with
    | stop early =>
      rw [verdict] at stopped
      simp only [Prod.mk.injEq, Verdict.stop.injEq] at stopped
      exact ⟨regs, pos, symbol, start, by rw [verdict, stopped.1]⟩
    | more next =>
      rw [verdict] at first stopped
      exact ih first stopped

theorem feed_started (pieces : List (List Symbol)) (start : holds regs) :
    holds (feed step filler regs pos data pieces).1.1 := by
  induction pieces generalizing regs pos data with
  | nil => exact start
  | cons piece pieces ih =>
    have scanned : (scanRest step filler regs pos data).1.GoesOn holds := scan_goes_on kept start
    rw [feed]
    generalize scanRest step filler regs pos data = outcome at scanned
    obtain ⟨verdict, reached⟩ := outcome
    cases verdict with
    | stop reason => exact start
    | more next => exact ih scanned

end Kept

/-- `goes` is true of the registers that a verdict goes on with, `stops` of the reason that
it stops for. -/
def Verdict.Meets (goes : Registers → Prop) (stops : Stop → Prop) : Verdict Registers Stop → Prop
  | .more regs => goes regs
  | .stop reason => stops reason

section

variable (goes : Registers → Prop) (stops : Stop → Prop)

@[simp] theorem meets_more (regs : Registers) :
    (Verdict.more regs).Meets goes stops ↔ goes regs := Iff.rfl

@[simp] theorem meets_stop (reason : Stop) :
    (Verdict.stop reason).Meets goes stops ↔ stops reason := Iff.rfl

@[simp] theorem meets_ite (cond : Prop) [Decidable cond] (yes no : Verdict Registers Stop) :
    (if cond then yes else no).Meets goes stops ↔
      (cond → yes.Meets goes stops) ∧ (¬ cond → no.Meets goes stops) := by
  by_cases true_ : cond <;> simp [true_]

end

theorem scan_meets (kept : ∀ regs pos, goes regs pos →
      (step input regs pos (input pos)).Meets (fun next => goes next (pos + 1)) stops)
        (reads : ∀ index (inside : index < syms.length),
      syms.get ⟨index, inside⟩ = input (pos + index)) (start : goes regs pos) :
    (scan step input regs pos syms).1.Meets
      (fun next => goes next (pos + syms.length)) stops := by
  induction syms generalizing regs pos with
  | nil => exact start
  | cons symbol syms ih =>
    have isSymbol : symbol = input pos := reads 0 (by simp)
    have first := kept regs pos start
    rw [← isSymbol] at first
    rw [scan]
    cases verdict : step input regs pos symbol with
    | stop reason =>
      rw [verdict] at first
      exact first
    | more next =>
      rw [verdict] at first
      have behind : ∀ index (inside : index < syms.length),
          syms.get ⟨index, inside⟩ = input (pos + 1 + index) := by
        intro index inside
        have read := reads (index + 1) (by simpa using inside)
        rw [Nat.add_assoc, Nat.add_comm 1 index]
        exact read
      have rest := ih behind first
      rw [Nat.add_assoc, Nat.add_comm 1] at rest
      exact rest

theorem scan_rest_meets (kept : ∀ regs pos, goes regs pos →
      (step (readAt filler data) regs pos (readAt filler data pos)).Meets
        (fun next => goes next (pos + 1)) stops) (start : goes regs pos) :
    (scanRest step filler regs pos data).1.Meets
      (fun next => goes next (pos + (data.drop pos).length)) stops := by
  apply scan_meets kept _ start
  intro index inside
  have bound : pos + index < data.length := by
    rw [length_drop] at inside
    omega
  rw [readAt, List.getD, getElem?_eq_getElem bound, Option.getD_some, get_eq_getElem,
    getElem_drop]

end ServerCore.ResumableScan
