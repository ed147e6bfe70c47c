import ServerCore.NginxEventTimerOrder

/-!
# Pending timers under a moving clock

The clock and the deadlines are numbers that never wrap around; the tree holds the words
they are stored as. As long as every deadline is within a quarter of the range from the
clock, each call acts on the tree as on a tree of the numbers themselves.
-/

namespace ServerCore.NginxEventTimerWindow

open RedBlackTree RedBlackTree.Tree
open NginxRbtree
open NginxRbtreeShape NginxRbtreeDelete NginxRbtreeKeys
open NginxRbtreeRuns (Holds place place_length perform_holds)
open NginxEventTimer NginxEventTimerOrder List Option Function

variable {item : Item}

abbrev Deadlines := Address → Option Nat

/-- What a call does to the deadlines: a new one that is less than the lazy delay away
from the old one is not taken over. -/
def follow (now : Nat) (due : Deadlines) : Call → Deadlines
  | .add ev timer =>
    match due ev with
    | none => update due ev (some (now + timer))
    | some old =>
      if ngxAbs (((now + timer : Nat) : Int) - old) < ngxTimerLazyDelay then due
      else update due ev (some (now + timer))
  | .del ev => update due ev none

/-- The timeouts are below a quarter of the range, and no event is the sentinel. -/
def Allowed (w : Nat) (sentinel : Address) : Call → Prop
  | .add ev timer => ev ≠ sentinel ∧ timer < 2 ^ (w - 2)
  | .del _ => True

def Positive : Call → Prop
  | .add _ timer => 0 < timer
  | .del _ => True

structure Keeps (w : Nat) (sentinel : Address) (now : Nat) (due : Deadlines) (timers : Timers)
    (ghost : Rbtree) (items : List Item) : Prop where
  tree : timers.tree = mapKeys (word w) ghost
  own : ghost.sentinel = sentinel
  holds : Holds ghost items
  pending : ∀ ev key, ⟨ev, key⟩ ∈ items ↔ due ev = some key
  set : ∀ ev, timers.timerSet ev = (due ev).isSome
  window : ∀ ev key, due ev = some key → now ≤ key + 2 ^ (w - 2) ∧ key < now + 2 ^ (w - 2)

theorem key_of_member {tree : Rbtree} {items : List Item} (holds : Holds tree items)
    (mem : item ∈ items) : (tree.memory item.address).key = item.key := by
  obtain ⟨shape, rep, -, rfl, -⟩ := holds
  obtain ⟨ctx, color, left, right, rfl⟩ := exists_plug mem
  obtain ⟨top, loaded⟩ := load_node ctx (show Represents tree (plug ctx (join .left color left item right))
    from rep)
  injection loaded with loaded
  rw [loaded, cell_key]

section Calls

variable {w fuel now : Nat} {sentinel ev : Address} {due : Deadlines} {timers : Timers} {ghost : Rbtree}
  {items : List Item}

section

variable {key : Nat} (keeps : Keeps w sentinel now due timers ghost items) (pending : due ev = some key)
include keeps pending

theorem key_of_pending : (timers.tree.memory ev).key = word w key := by
  have mem := (keeps.pending ev key).mpr pending
  have stored := key_of_member keeps.holds mem
  rw [keeps.tree]
  exact congrArg (word w) stored

theorem deleted_keeps (enough : items.length + 2 ≤ fuel) :
    ∃ tree other, timers.tree.ngxRbtreeDelete fuel (some ev) = some tree ∧
      ∀ timedout, Keeps w sentinel now (update due ev none)
        ⟨tree, update timers.timerSet ev false, timedout⟩ other
        (items.filter fun item => item.address ≠ ev) := by
  have mem := (keeps.pending ev key).mpr pending
  obtain ⟨other, done, own, holds⟩ :=
    @perform_holds fuel ghost items (.delete ev) enough ⟨_, mem, rfl⟩ keeps.holds
  refine ⟨mapKeys (word w) other, other, ?_, fun timedout => ⟨rfl, own.trans keeps.own, holds, ?_, ?_, ?_⟩⟩
  · rw [keeps.tree, delete_map (word_zero w)]
    exact congrArg (Option.map (mapKeys (word w))) done
  · intro addr late
    rw [mem_filter, keeps.pending]
    by_cases same : addr = ev
    · simp [same]
    · simp [same]
  · intro addr
    by_cases same : addr = ev
    · simp [same]
    · simp [same, keeps.set]
  · intro addr late found
    by_cases same : addr = ev
    · simp [same] at found
    · rw [update_of_ne same] at found
      exact keeps.window addr late found

end

variable {timer : Nat}

theorem compares_within (wide : 2 ≤ w) (short : timer < 2 ^ (w - 2))
    (keeps : Keeps w sentinel now due timers ghost items) : Compares w (word w) (now + timer) items := by
  rintro ⟨addr, late⟩ mem
  obtain ⟨behind, ahead⟩ := keeps.window addr late ((keeps.pending addr late).mp mem)
  have above : now + timer < late + 2 * 2 ^ (w - 2) := by omega
  have below : late ≤ now + timer + 2 * 2 ^ (w - 2) := by omega
  have difference := msec_int_words wide above below
  show ngxMsecInt w ((word w (now + timer) : Int) - word w late) < 0 ↔ now + timer < late
  rw [difference]
  omega

theorem mem_place {other : Item} : other ∈ place item items ↔ other = item ∨ other ∈ items := by
  have whole := takeWhile_append_dropWhile (p := fun other => decide (other.key ≤ item.key)) (l := items)
  rw [place, mem_append, mem_cons]
  conv_rhs => rw [← whole, mem_append]
  tauto

theorem set_keeps (wide : 2 ≤ w) (foreign : ev ≠ sentinel) (short : timer < 2 ^ (w - 2))
    (absent : due ev = none) (keeps : Keeps w sentinel now due timers ghost items)
    (enough : items.length + 2 ≤ fuel) :
    ∃ after other, setTimer w fuel timers ev (word w (now + timer)) = some after ∧
      Keeps w sentinel now (update due ev (some (now + timer))) after other
        (place ⟨ev, now + timer⟩ items) := by
  have outside : ∀ other ∈ items, other.address ≠ ev := by
    rintro ⟨addr, late⟩ mem rfl
    rw [(keeps.pending _ late).mp mem] at absent
    cases absent
  obtain ⟨other, done, own, holds⟩ := @perform_holds fuel ghost items (.insert ⟨ev, now + timer⟩) enough
    ⟨by rwa [keeps.own], outside⟩ keeps.holds
  obtain ⟨shape, rep, -, order, -⟩ := keeps.holds
  have fresh : ev ∉ addresses shape := by
    intro inside
    obtain ⟨item, mem, same⟩ := Multiset.mem_map.mp inside
    exact outside item (order ▸ mem) same
  obtain ⟨keyed, stored, keyedOwn, focused⟩ := NginxRbtreeUnlink.focused_store
    (fun node => { node with key := now + timer })
    (show Focused ghost [] shape from ⟨rep, by simp⟩) fresh (by rwa [keeps.own])
  have key : (keyed.memory ev).key = now + timer := by
    cases stored
    simp
  have compares : Compares w (word w) (keyed.memory ev).key shape.inorder := by
    rw [key, order]
    exact compares_within wide short keeps
  have later : ∀ item ∈ shape.inorder,
      (decide (ngxMsecInt w ((word w (keyed.memory ev).key : Int) - word w item.key) < 0) = true ↔
        (keyed.memory ev).key < item.key) := fun item mem => decide_eq_true_iff.trans (compares item mem)
  have inserted : keyed.ngxRbtreeInsert fuel (some ev) = some other := by
    simpa only [NginxRbtreeRuns.perform, stored, bind_eq_bind, bind_some] using done
  have written : timers.tree.store (some ev) (fun node => { node with key := word w (now + timer) }) =
      some (mapKeys (word w) keyed) := by
    rw [keeps.tree, store_key_map, stored]
    rfl
  refine ⟨⟨mapKeys (word w) other, update timers.timerSet ev true, timers.timedout⟩, other, ?_, ?_⟩
  · rw [setTimer, written, bind_eq_bind, bind_some,
      insert_by_map (timer_descends w) focused.represents later,
      inserted]
    rfl
  · refine ⟨rfl, own.trans keeps.own, holds, ?_, ?_, ?_⟩
    · intro addr late
      rw [mem_place, keeps.pending]
      by_cases same : addr = ev
      · subst same
        simp [absent, eq_comm]
      · simp [same]
    · intro addr
      by_cases same : addr = ev
      · simp [same]
      · simp [same, keeps.set]
    · intro addr late found
      by_cases same : addr = ev
      · subst same
        rw [update_self] at found
        injection found with found
        omega
      · rw [update_of_ne same] at found
        exact keeps.window addr late found

theorem set_of_pending {key : Nat} (keeps : Keeps w sentinel now due timers ghost items)
    (pending : due ev = some key) : timers.timerSet ev = true := by
  rw [keeps.set, pending]
  rfl

theorem unset_of_absent (keeps : Keeps w sentinel now due timers ghost items)
    (absent : due ev = none) : timers.timerSet ev = false := by
  rw [keeps.set, absent]
  rfl

theorem diff_of_pending (wide : 2 ≤ w) {old : Nat} (short : timer < 2 ^ (w - 2))
    (keeps : Keeps w sentinel now due timers ghost items) (pending : due ev = some old) :
    ngxMsecInt w (((now % 2 ^ w + timer) % 2 ^ w : Nat) - (timers.tree.memory ev).key) =
      ((now + timer : Nat) : Int) - old := by
  obtain ⟨behind, ahead⟩ := keeps.window ev old pending
  have above : now + timer < old + 2 * 2 ^ (w - 2) := by omega
  have below : old ≤ now + timer + 2 * 2 ^ (w - 2) := by omega
  rw [key_of_pending keeps pending, Nat.mod_add_mod]
  exact msec_int_words wide above below

def dueCount (now : Nat) (items : List Item) : Nat := items.countP fun item => item.key ≤ now

theorem due_count_place (later : now < item.key) :
    dueCount now (place item items) = dueCount now items := by
  have whole := takeWhile_append_dropWhile (p := fun other => decide (other.key ≤ item.key)) (l := items)
  have notDue : decide (item.key ≤ now) ≠ true := by simpa using later
  have head : ∀ rest : List Item, (item :: rest).countP (fun other => decide (other.key ≤ now)) =
      rest.countP fun other => decide (other.key ≤ now) := fun _ => countP_cons_of_neg notDue
  rw [dueCount, dueCount, place, countP_append, head, ← countP_append, whole]

theorem due_count_filter (now : Nat) (items : List Item) (kept : Item → Bool) : dueCount now
    (items.filter kept) ≤ dueCount now items :=
  List.Sublist.countP_le filter_sublist

def Follows (w : Nat) (sentinel : Address) (now : Nat) (due : Deadlines) (items : List Item) (extra : Nat)
    (pos : Prop) (after : Timers) : Prop :=
  ∃ ghost later, Keeps w sentinel now due after ghost later ∧ later.length ≤ items.length + extra ∧
    (pos → dueCount now later ≤ dueCount now items)

theorem add_follows (wide : 2 ≤ w) (foreign : ev ≠ sentinel) (short : timer < 2 ^ (w - 2))
    (keeps : Keeps w sentinel now due timers ghost items) (enough : items.length + 2 ≤ fuel) :
    ∃ after, ngxEventAddTimer w fuel (now % 2 ^ w) timers ev timer = some after ∧
      Follows w sentinel now (follow now due (.add ev timer)) items 1 (0 < timer) after := by
  have key : (now % 2 ^ w + timer) % 2 ^ w = word w (now + timer) := Nat.mod_add_mod ..
  cases pending : due ev with
  | none =>
    obtain ⟨after, other, added, afterKeeps⟩ := set_keeps wide foreign short pending keeps enough
    refine ⟨after, ?_, other, place ⟨ev, now + timer⟩ items, ?_, (place_length _ _).le, ?_⟩
    · rw [ngxEventAddTimer, unset_of_absent keeps pending, key]
      exact added
    · rw [follow, pending]
      exact afterKeeps
    · intro pos
      rw [due_count_place (by dsimp only; omega)]
  | some old =>
    have difference := diff_of_pending wide short keeps pending
    by_cases lazy : ngxAbs (((now + timer : Nat) : Int) - old) < ngxTimerLazyDelay
    · refine ⟨timers, ?_, ghost, items, ?_, Nat.le_succ _, fun _ => le_rfl⟩
      · simp only [ngxEventAddTimer, set_of_pending keeps pending, if_true, difference, lazy]
      · simp only [follow, pending, lazy, if_true]
        exact keeps
    · obtain ⟨tree, first, deleted, firstKeeps⟩ := deleted_keeps keeps pending enough
      have shorter := length_filter_le (fun item : Item => decide (item.address ≠ ev)) items
      have fewer := due_count_filter now items fun item => decide (item.address ≠ ev)
      obtain ⟨after, other, added, afterKeeps⟩ := set_keeps wide foreign short (update_self ..)
        (firstKeeps timers.timedout) (by omega : _ + 2 ≤ fuel)
      refine ⟨after, ?_, other,
        place ⟨ev, now + timer⟩ (items.filter fun item => decide (item.address ≠ ev)),
        ?_, ?_, ?_⟩
      · simp only [ngxEventAddTimer, set_of_pending keeps pending, if_true, difference, lazy, if_false,
          ngxEventDelTimer, deleted, bind_eq_bind, bind_some]
        rw [key]
        exact added
      · simp only [follow, pending, lazy, if_false]
        rwa [update_idem] at afterKeeps
      · rw [place_length]
        omega
      · intro pos
        rw [due_count_place (by dsimp only; omega)]
        exact fewer

theorem perform_follows (wide : 2 ≤ w) {call : Call} (allowed : Allowed w sentinel call)
    (keeps : Keeps w sentinel now due timers ghost items) (enough : items.length + 2 ≤ fuel) :
    ∃ after, perform w fuel (now % 2 ^ w) timers call = some after ∧
      Follows w sentinel now (follow now due call) items 1 (Positive call) after := by
  cases call with
  | add ev timer => exact add_follows wide allowed.1 allowed.2 keeps enough
  | del ev =>
    cases pending : due ev with
    | none =>
      have same : follow now due (.del ev) = due := by
        rw [follow, ← pending, update_eq_self]
      refine ⟨timers, ?_, ghost, items, by rwa [same], Nat.le_succ _, fun _ => le_rfl⟩
      rw [perform, unset_of_absent keeps pending]
      rfl
    | some key =>
      obtain ⟨tree, other, deleted, otherKeeps⟩ := deleted_keeps keeps pending enough
      refine ⟨_, ?_, other, _, otherKeeps timers.timedout, ?_, fun _ => due_count_filter ..⟩
      · rw [perform, set_of_pending keeps pending, if_pos rfl, ngxEventDelTimer, deleted]
        rfl
      · exact (length_filter_le _ _).trans (Nat.le_succ _)

theorem calls_follow (wide : 2 ≤ w) (calls : List Call) (allowed : ∀ call ∈ calls, Allowed w sentinel call)
    (keeps : Keeps w sentinel now due timers ghost items) (enough : items.length + calls.length + 2 ≤ fuel) :
    ∃ after, calls.foldlM (perform w fuel (now % 2 ^ w)) timers = some after ∧
      Follows w sentinel now (calls.foldl (follow now) due) items calls.length
        (∀ call ∈ calls, Positive call) after := by
  induction calls generalizing due timers ghost items with
  | nil => exact ⟨timers, rfl, ghost, items, keeps, le_rfl, fun _ => le_rfl⟩
  | cons call calls ih =>
    rw [length_cons] at enough
    obtain ⟨next, done, middle, later, nextKeeps, longer, fewer⟩ :=
      perform_follows wide (allowed call (mem_cons_self ..)) keeps (by omega : items.length + 2 ≤ fuel)
    obtain ⟨after, finished, last, rest, afterKeeps, restLonger, restFewer⟩ :=
      ih (fun other mem => allowed other (mem_cons_of_mem _ mem)) nextKeeps
        (by omega : later.length + calls.length + 2 ≤ fuel)
    refine ⟨after, ?_, last, rest, afterKeeps, ?_, ?_⟩
    · rw [foldlM_cons, done]
      exact finished
    · rw [length_cons]
      omega
    · intro pos
      have here := fewer (pos call (mem_cons_self ..))
      exact (restFewer fun other mem => pos other (mem_cons_of_mem _ mem)).trans here

end Calls

end ServerCore.NginxEventTimerWindow
