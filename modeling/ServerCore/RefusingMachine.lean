import Mathlib.Data.List.Basic

/-!
# Machines that refuse

A machine takes one symbol after the other and may refuse one. It then stands
where it stood before that symbol and takes nothing more. What it has done
depends on the symbols only, and not on the pieces in which they came.
-/

namespace ServerCore.RefusingMachine

variable {State Symbol : Type*}
variable {symbol : Symbol} {first : List Symbol}

/-- Where the machine stands after these symbols, and whether it has refused one. -/
def feed (step : State → Symbol → Option State) (state : State) : List Symbol → State × Bool
  | [] => (state, false)
  | symbol :: rest =>
    match step state symbol with
    | some next => feed step next rest
    | none => (state, true)

variable {step : State → Symbol → Option State} {state next : State}

@[simp] theorem feed_nil : feed step state [] = (state, false) := rfl

theorem feed_cons (taken : step state symbol = some next) (rest : List Symbol) :
    feed step state (symbol :: rest) = feed step next rest := by
  rw [feed, taken]

theorem feed_refused (refused : step state symbol = none)
    (rest : List Symbol) : feed step state (symbol :: rest) = (state, true) := by
  rw [feed, refused]

theorem feed_append (taken : feed step state first = (next, false))
    (second : List Symbol) : feed step state (first ++ second) = feed step next second := by
  induction first generalizing state with
  | nil =>
    cases taken
    rfl
  | cons symbol first ih =>
    cases moved : step state symbol with
    | none =>
      rw [feed_refused moved] at taken
      cases taken
    | some middle =>
      rw [feed_cons moved] at taken
      rw [List.cons_append, feed_cons moved]
      exact ih taken

theorem feed_append_refused (refused : feed step state first = (next, true))
    (second : List Symbol) : feed step state (first ++ second) = (next, true) := by
  induction first generalizing state with
  | nil => cases refused
  | cons symbol first ih =>
    cases moved : step state symbol with
    | none =>
      rw [feed_refused moved] at refused
      rw [List.cons_append, feed_refused moved, refused]
    | some middle =>
      rw [feed_cons moved] at refused
      rw [List.cons_append, feed_cons moved]
      exact ih refused

theorem feed_keeps {property : State → Prop}
    (kept : ∀ state symbol next, property state → step state symbol = some next → property next)
    (syms : List Symbol) (holds : property state) : property (feed step state syms).1 := by
  induction syms generalizing state with
  | nil => exact holds
  | cons symbol rest ih =>
    cases moved : step state symbol with
    | none =>
      rw [feed_refused moved]
      exact holds
    | some next =>
      rw [feed_cons moved]
      exact ih (kept state symbol next holds moved)

end ServerCore.RefusingMachine
