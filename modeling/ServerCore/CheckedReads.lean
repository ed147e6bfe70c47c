import Mathlib.Data.List.Basic

/-!
# Runs that read an input by positions

A run ends with a value or stops: it refuses its input, it reads a position that the input
does not have, or it does not end. A run is checked if it stops only by a refusal; this is
kept by sequences, branches and the reads of positions that are there.
-/

namespace ServerCore.CheckedReads

open List

inductive Stop (Refusal : Type) where
  | outside
  | endless
  | refused (reason : Refusal)
  deriving DecidableEq

variable {Symbol Refusal Value Next : Type}

abbrev Run (Refusal Value : Type) := Except (Stop Refusal) Value

def readAt (input : List Symbol) (pos : Nat) : Run Refusal Symbol :=
  match input[pos]? with
  | some symbol => .ok symbol
  | none => .error .outside

def readMany (input : List Symbol) (pos count : Nat) : Run Refusal (List Symbol) :=
  if pos + count ≤ input.length then .ok ((input.drop pos).take count) else .error .outside

def refuse (reason : Refusal) : Run Refusal Value := .error (.refused reason)

@[simp] theorem bind_ok (value : Value) (next : Value → Run Refusal Next) :
    (((.ok value : Run Refusal Value) >>= next) : Run Refusal Next) = next value := rfl

variable {pos : Nat}

theorem read_front (front : List Symbol) (symbol : Symbol) (rest : List Symbol)
    (isPos : pos = front.length) :
    (readAt (front ++ symbol :: rest) pos : Run Refusal Symbol) = .ok symbol := by
  rw [readAt, isPos, getElem?_append_right (Nat.le_refl _), Nat.sub_self]
  rfl

theorem read_many_front (front taken rest : List Symbol) {count : Nat} (isPos : pos = front.length)
    (isCount : count = taken.length) :
    (readMany (front ++ (taken ++ rest)) pos count : Run Refusal (List Symbol)) = .ok taken := by
  have inside : front.length + taken.length ≤ (front ++ (taken ++ rest)).length := by
    rw [length_append, length_append]
    omega
  rw [readMany, isPos, isCount, if_pos inside, drop_left, take_left]

section Checks

variable {run : Run Refusal Value}

def Checked (post : Value → Prop) : Run Refusal Value → Prop
  | .ok value => post value
  | .error (.refused _) => True
  | .error _ => False

variable {post : Value → Prop} {goal : Next → Prop}

theorem checked_ok {value : Value} (holds : post value) :
    Checked post (.ok value : Run Refusal Value) := holds

theorem checked_refuse (reason : Refusal) : Checked post (refuse reason : Run Refusal Value) := trivial

theorem checked_bind {next : Value → Run Refusal Next} (first : Checked post run)
    (then_ : ∀ value, post value → Checked goal (next value)) : Checked goal (run >>= next) := by
  cases run with
  | ok value => exact then_ value first
  | error stop =>
    cases stop with
    | outside => exact first.elim
    | endless => exact first.elim
    | refused reason => exact trivial

theorem checked_weaken {other : Value → Prop} (checked : Checked post run)
    (weaker : ∀ value, post value → other value) : Checked other run := by
  cases run with
  | ok value => exact weaker value checked
  | error stop =>
    cases stop with
    | outside => exact checked.elim
    | endless => exact checked.elim
    | refused reason => exact trivial

variable {input : List Symbol}

theorem checked_read (inside : pos < input.length) :
    Checked (fun symbol => input[pos]? = some symbol) (readAt input pos : Run Refusal Symbol) := by
  rw [readAt, getElem?_eq_getElem inside]
  exact checked_ok rfl

theorem checked_read_many {count : Nat} (inside : pos + count ≤ input.length) :
    Checked (fun taken => taken.length = count) (readMany input pos count : Run Refusal (List Symbol)) := by
  rw [readMany, if_pos inside]
  apply checked_ok
  rw [length_take, length_drop]
  omega

theorem checked_cases (checked : Checked post run) :
    (∃ value, run = .ok value ∧ post value) ∨ ∃ reason, run = refuse reason := by
  cases run with
  | ok value => exact .inl ⟨value, rfl, checked⟩
  | error stop =>
    cases stop with
    | outside => exact checked.elim
    | endless => exact checked.elim
    | refused reason => exact .inr ⟨reason, rfl⟩

end Checks

end ServerCore.CheckedReads
