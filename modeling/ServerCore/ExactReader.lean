import Mathlib.Data.List.Basic

/-!
# Readers and what they read

A reader takes a text from the front of its input, refuses the input, or stops
in another way, for example because the input ends. It reads a form of texts
exactly if it takes each text of the form, whatever follows, and refuses every
other input that is long enough.
-/

namespace ServerCore.ExactReader

variable {Symbol Stop : Type} {First Second : Type}

abbrev Reader (Symbol Stop Value : Type) := StateT (List Symbol) (Except Stop) Value

/-- `Written value text` says that the text stands for the value. -/
structure Reads (refusal : Stop) (reader : Reader Symbol Stop First) (size : Nat)
    (Written : First → List Symbol → Prop) : Prop where
  short : ∀ {value text}, Written value text → text.length ≤ size
  reads : ∀ {value text}, Written value text → ∀ rest, reader.run (text ++ rest) = .ok (value, rest)
  refuses : ∀ input, size ≤ input.length →
    reader.run input = .error refusal ∨ ∃ value text rest, Written value text ∧ input = text ++ rest

def Joined (WrittenFirst : First → List Symbol → Prop) (WrittenSecond : First → Second → List Symbol → Prop)
    (value : Second) (text : List Symbol) : Prop :=
  ∃ first front back, WrittenFirst first front ∧ WrittenSecond first value back ∧ text = front ++ back

variable {refusal : Stop} {size sizeSecond : Nat}

variable {reader : Reader Symbol Stop First} {Written : First → List Symbol → Prop} {input : List Symbol}

theorem run_cases (isExact : Reads refusal reader size Written) (enough : size ≤ input.length) :
    reader.run input = .error refusal ∨
      ∃ value text rest, Written value text ∧ input = text ++ rest ∧
      reader.run input = .ok (value, rest) := by
  rcases isExact.refuses input enough with refused | ⟨value, text, rest, written, split⟩
  · exact .inl refused
  · right
    refine ⟨value, text, rest, written, split, ?_⟩
    rw [split]
    exact isExact.reads written rest

section

variable {reader : Reader Symbol Stop First} {next : First → Reader Symbol Stop Second}

theorem run_bind_ok {rest : List Symbol} {value : First} (taken : reader.run input = .ok (value, rest)) :
    (reader >>= next).run input = (next value).run rest := by
  rw [StateT.run_bind, taken]
  rfl

theorem run_bind_error {stop : Stop} (stopped : reader.run input = .error stop) :
    (reader >>= next).run input = .error stop := by
  rw [StateT.run_bind, stopped]
  rfl

end

theorem reads_pure (value : First) :
    Reads refusal (pure value : Reader Symbol Stop First) 0
      (fun other text => other = value ∧ text = []) where
  short := by
    intro other text written
    rw [written.2]
    exact Nat.le_refl 0
  reads := by
    intro other text written rest
    rw [written.1, written.2]
    rfl
  refuses := by
    intro input enough
    exact .inr ⟨value, [], input, ⟨rfl, rfl⟩, rfl⟩

theorem reads_bind {next : First → Reader Symbol Stop Second}
    {WrittenFirst : First → List Symbol → Prop} {WrittenSecond : First → Second → List Symbol → Prop}
    (readsFirst : Reads refusal reader size WrittenFirst)
    (readsNext : ∀ first, Reads refusal (next first) sizeSecond (WrittenSecond first)) :
    Reads refusal (reader >>= next) (size + sizeSecond) (Joined WrittenFirst WrittenSecond) where
  short := by
    intro value text written
    obtain ⟨first, front, back, isFirst, isSecond, split⟩ := written
    rw [split, List.length_append]
    exact Nat.add_le_add (readsFirst.short isFirst) ((readsNext first).short isSecond)
  reads := by
    intro value text written rest
    obtain ⟨first, front, back, isFirst, isSecond, split⟩ := written
    rw [split, List.append_assoc, run_bind_ok (readsFirst.reads isFirst (back ++ rest))]
    exact (readsNext first).reads isSecond rest
  refuses := by
    intro input enough
    rcases run_cases readsFirst (Nat.le_trans (Nat.le_add_right size sizeSecond) enough) with
      refused | ⟨first, front, rest, isFirst, split, taken⟩
    · exact .inl (run_bind_error refused)
    · have short := readsFirst.short isFirst
      rw [split, List.length_append] at enough
      rw [run_bind_ok taken]
      rcases (readsNext first).refuses rest (by omega) with
        refused | ⟨value, back, behind, isSecond, splitRest⟩
      · exact .inl refused
      · right
        refine ⟨value, front ++ back, behind, ⟨first, front, back, isFirst, isSecond, rfl⟩, ?_⟩
        rw [split, splitRest, List.append_assoc]

theorem reads_congr {Other : First → List Symbol → Prop}
    (same : ∀ value text, Other value text ↔ Written value text)
    (isExact : Reads refusal reader size Written) :
    Reads refusal reader size Other where
  short := fun written => isExact.short ((same _ _).mp written)
  reads := fun written => isExact.reads ((same _ _).mp written)
  refuses := by
    intro input enough
    rcases isExact.refuses input enough with refused | ⟨value, text, rest, written, split⟩
    · exact .inl refused
    · exact .inr ⟨value, text, rest, (same value text).mpr written, split⟩

end ServerCore.ExactReader
