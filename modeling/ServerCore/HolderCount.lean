import Mathlib.Data.List.Nodup
import Mathlib.Tactic.Linarith

/-!
# Counting who holds what

A table of slots, each of which may refer to one key, and the number of slots
that refer to a given key. A counter beside the table is right when every change
of a slot is matched by the change of the counter that the lemmas state.
-/

namespace ServerCore.HolderCount

open List

variable {Slot Key : Type*}
variable {holds : Prop} {key : Key} {keys : List Key} {mark mark' : Key → Prop}

def one (holds : Prop) [Decidable holds] : Int := if holds then 1 else 0

@[simp] theorem one_true [Decidable holds] (isTrue : holds) : one holds = 1 :=
  if_pos isTrue

@[simp] theorem one_false [Decidable holds] (isFalse : ¬ holds) : one holds = 0 :=
  if_neg isFalse

theorem one_congr {holds' : Prop} [Decidable holds] [Decidable holds'] (same : holds ↔ holds') :
    one holds = one holds' := if_congr same rfl rfl

section

variable [DecidableEq Key] (ref : Slot → Option Key)
include ref

def holders (slots : List Slot) (key : Key) : Int :=
  (slots.countP fun slot => ref slot = some key : Nat)

theorem holders_nonneg (slots : List Slot) (key : Key) :
    0 ≤ holders ref slots key := Int.natCast_nonneg _

@[simp] theorem holders_nil (key : Key) : holders ref [] key = 0 := rfl

theorem holders_cons (slot : Slot) (slots : List Slot) (key : Key) :
    holders ref (slot :: slots) key = holders ref slots key + one (ref slot = some key) := by
  unfold holders one
  rw [countP_cons]
  by_cases refers : ref slot = some key
  · simp [refers]
  · simp [refers]

theorem holders_append (slots more : List Slot) (key : Key) :
    holders ref (slots ++ more) key = holders ref slots key + holders ref more key := by
  unfold holders
  rw [countP_append, Int.natCast_add]

end

section

variable [DecidableEq Key] {ref : Slot → Option Key} {slots : List Slot}

theorem holders_set {place : Nat} {old : Slot}
    (isOld : slots[place]? = some old) (new : Slot) (key : Key) : holders ref (slots.set place new) key =
      holders ref slots key - one (ref old = some key) + one (ref new = some key) := by
  induction slots generalizing place with
  | nil => cases isOld
  | cons slot slots ih =>
    cases place with
    | zero =>
      cases isOld
      rw [set_cons_zero, holders_cons, holders_cons]
      linarith
    | succ place =>
      rw [set_cons_succ, holders_cons, holders_cons, ih isOld]
      linarith

theorem holders_of_none (none_ : ∀ slot ∈ slots, ref slot ≠ some key) : holders ref slots key = 0 := by
  unfold holders
  rw [countP_eq_zero.mpr]
  · rfl
  · intro slot mem
    simpa using none_ slot mem

theorem not_held_of_zero (zero : holders ref slots key = 0) : ∀ slot ∈ slots, ref slot ≠ some key := by
  intro slot mem refers
  have counted : 0 < slots.countP fun slot => ref slot = some key :=
    countP_pos_iff.mpr ⟨slot, mem, by simpa using refers⟩
  unfold holders at zero
  omega

end

def marked (mark : Key → Prop) [DecidablePred mark] (keys : List Key) : Int :=
  (keys.countP fun key => mark key : Nat)

theorem marked_cons (mark : Key → Prop) [DecidablePred mark] (key : Key) (keys : List Key) :
    marked mark (key :: keys) = marked mark keys + one (mark key) := by
  unfold marked one
  rw [countP_cons]
  by_cases isMarked : mark key
  · simp [isMarked]
  · simp [isMarked]

theorem marked_perm (mark : Key → Prop) [DecidablePred mark] {more : List Key}
    (same : keys.Perm more) : marked mark keys = marked mark more := by
  unfold marked
  rw [same.countP_eq]

theorem marked_congr [DecidablePred mark] [DecidablePred mark']
    (same : ∀ key ∈ keys, (mark' key ↔ mark key)) :
    marked mark' keys = marked mark keys := by
  unfold marked
  rw [countP_congr]
  intro key mem
  simpa using same key mem

theorem marked_change [DecidableEq Key] [DecidablePred mark] [DecidablePred mark'] {changed : Key}
    (once : keys.Nodup) (mem : changed ∈ keys) (same : ∀ key, key ≠ changed → (mark' key ↔ mark key)) :
    marked mark' keys = marked mark keys - one (mark changed) + one (mark' changed) := by
  have split : keys.Perm (changed :: keys.erase changed) := perm_cons_erase mem
  have rest : marked mark' (keys.erase changed) = marked mark (keys.erase changed) := by
    apply marked_congr
    intro key inRest
    exact same key fun isChanged => once.not_mem_erase (isChanged ▸ inRest)
  rw [marked_perm mark' split, marked_perm mark split, marked_cons, marked_cons, rest]
  linarith

end ServerCore.HolderCount
