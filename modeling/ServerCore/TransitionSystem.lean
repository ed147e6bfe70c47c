import Mathlib.Logic.Relation

/-!
# Labelled transition systems

A system is an initial predicate and a labelled step relation; a run records its
labels in order; an invariant is proved for the initial states and for one step,
and then holds after every run.
-/

namespace ServerCore.TransitionSystem

variable {State Label : Type*}

structure System (State Label : Type*) where
  initial : State → Prop
  next : State → Label → State → Prop

/-- A run is extended at its end, so that an induction over it peels off the
last step and keeps the start fixed. -/
inductive Run (system : System State Label) (start : State) : List Label → State → Prop
  | refl : Run system start [] start
  | step {labels : List Label} {before : State} {label : Label} {after : State} :
      Run system start labels before → system.next before label after →
        Run system start (labels ++ [label]) after

def Reachable (system : System State Label) (state : State) : Prop :=
  ∃ start labels, system.initial start ∧ Run system start labels state

section

variable {system : System State Label}

variable {state : State} {property : State → Prop}

theorem reachable_initial (first : system.initial state) : Reachable system state :=
  ⟨state, [], first, .refl⟩

theorem reachable_next {before after : State} {label : Label} (reached : Reachable system before)
    (moved : system.next before label after) : Reachable system after := by
  obtain ⟨start, labels, first, run⟩ := reached
  exact ⟨start, labels ++ [label], first, run.step moved⟩

theorem reachable_foldl {move : State → Label → State}
    (moves : ∀ state label, system.next state label (move state label)) (labels : List Label)
    (reached : Reachable system state) : Reachable system (labels.foldl move state) := by
  induction labels generalizing state with
  | nil => exact reached
  | cons label labels ih => exact ih (reachable_next reached (moves state label))

theorem reachable_foldlM {move : State → Label → Option State}
    (moves : ∀ before label after, move before label = some after → system.next before label after)
    (labels : List Label) {finish : State} (reached : Reachable system state)
    (ran : labels.foldlM move state = some finish) : Reachable system finish := by
  induction labels generalizing state with
  | nil =>
    cases ran
    exact reached
  | cons label labels ih =>
    obtain ⟨middle, moved, rest⟩ := Option.bind_eq_some_iff.1 ran
    exact ih (reachable_next reached (moves state label middle moved)) rest

theorem run_preserves
    (preserved : ∀ before label after, property before → system.next before label after → property after)
    {start finish : State} {labels : List Label} (run : Run system start labels finish)
    (holds : property start) : property finish := by
  induction run with
  | refl => exact holds
  | step _ moved ih => exact preserved _ _ _ ih moved

theorem reachable_invariant (base : ∀ state, system.initial state → property state)
    (preserved : ∀ before label after, property before → system.next before label after → property after)
    (reached : Reachable system state) : property state := by
  obtain ⟨start, labels, first, run⟩ := reached
  exact run_preserves preserved run (base start first)

end

end ServerCore.TransitionSystem
