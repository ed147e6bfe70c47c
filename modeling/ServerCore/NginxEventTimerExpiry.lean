import Mathlib.Algebra.GroupWithZero.Nat
import ServerCore.NginxEventTimerWindow

/-!
# Expiry of the event timers

The leftmost node of the tree is the timer with the earliest deadline. Each turn
of `ngx_event_expire_timers` takes it out while it is due, and as handlers add
timers with a positive timeout only, no turn makes another timer due.
-/

namespace ServerCore.NginxEventTimerExpiry

open RedBlackTree RedBlackTree.Tree
open NginxRbtree NginxRbtree.Rbtree
open NginxRbtreeShape NginxRbtreeKeys
open NginxRbtreeRuns (Holds)
open NginxEventTimer NginxEventTimerOrder NginxEventTimerWindow List Function

/-- The deadlines after a turn that runs the handler of `ev`. -/
def turn (now : Nat) (deadline : Deadlines) (ev : Address) (handlers : List (List Call)) : Deadlines :=
  (handlers.headD []).foldl (follow now) (update deadline ev none)

def Earliest (deadline : Deadlines) (ev : Address) (key : Nat) : Prop :=
  deadline ev = some key ∧ ∀ other late, deadline other = some late → key ≤ late

def Expires (now : Nat) : Deadlines → List (List Call) → List Address → Prop
  | deadline, _, [] => ∀ ev key, deadline ev = some key → now < key
  | deadline, handlers, ev :: evs =>
    (∃ key, Earliest deadline ev key ∧ key ≤ now) ∧
      Expires now (turn now deadline ev handlers) handlers.tail evs

def expired (now : Nat) : Deadlines → List (List Call) → List Address → Deadlines
  | deadline, _, [] => deadline
  | deadline, handlers, ev :: evs => expired now (turn now deadline ev handlers) handlers.tail evs

/-- A call that takes a timer with this deadline away: it is deleted, or set again for
another time. -/
def DeletesBy (now key : Nat) (ev : Address) : Call → Prop
  | .add other timer => other = ev ∧ ngxTimerLazyDelay ≤ ngxAbs (((now + timer : Nat) : Int) - key)
  | .del other => other = ev

def Deletes (now key : Nat) (ev : Address) (calls : List Call) : Prop :=
    ∃ call ∈ calls, DeletesBy now key ev call

section Deadlines

variable {now key : Nat} {deadline : Deadlines} {ev : Address} {call : Call} {calls : List Call}

theorem follow_due (pos : Positive call) (due : key ≤ now) (after : follow now deadline call ev = some key) :
    deadline ev = some key := by
  cases call with
  | add other timer =>
    have later : 0 < timer := pos
    have never : update deadline other (some (now + timer)) ev = some key → deadline ev = some key := by
      intro found
      by_cases same : ev = other
      · subst same
        rw [update_self] at found
        injection found with found
        omega
      · rwa [update_of_ne same] at found
    rw [follow] at after
    cases pending : deadline other with
    | none =>
      rw [pending] at after
      exact never after
    | some old =>
      rw [pending] at after
      dsimp only at after
      split_ifs at after
      · exact after
      · exact never after
  | del other =>
    by_cases same : ev = other
    · simp [follow, same] at after
    · rwa [follow, update_of_ne same] at after

theorem follow_keeps (pending : deadline ev = some key) (spared : ¬DeletesBy now key ev call) :
    follow now deadline call ev = some key := by
  cases call with
  | add other timer =>
    rw [follow]
    by_cases same : ev = other
    · subst same
      have lazy : ngxAbs (((now + timer : Nat) : Int) - key) < ngxTimerLazyDelay := by
        by_contra far
        exact spared ⟨rfl, Int.not_lt.mp far⟩
      rw [pending]
      dsimp only
      rw [if_pos lazy, pending]
    · cases deadline other with
      | none => exact (update_of_ne same ..).trans pending
      | some old =>
        dsimp only
        split_ifs
        · exact pending
        · exact (update_of_ne same ..).trans pending
  | del other =>
    have same : ev ≠ other := fun isOther => spared isOther.symm
    exact (update_of_ne same ..).trans pending

theorem follow_deletes (pos : Positive call) (pending : deadline ev = some key)
    (deletes : DeletesBy now key ev call) : ∀ late, follow now deadline call ev =
    some late → now < late := by
  intro late after
  cases call with
  | add other timer =>
    obtain ⟨rfl, far⟩ := deletes
    have later : 0 < timer := pos
    rw [follow] at after
    rw [pending] at after
    dsimp only at after
    rw [if_neg (Int.not_lt.mpr far), update_self] at after
    injection after with after
    omega
  | del other =>
    obtain rfl : other = ev := deletes
    simp [follow] at after

theorem calls_due (pos : ∀ call ∈ calls, Positive call) (due : key ≤ now)
    (after : calls.foldl (follow now) deadline ev = some key) : deadline ev = some key := by
  induction calls generalizing deadline with
  | nil => exact after
  | cons call calls ih =>
    have later := ih (fun other mem => pos other (mem_cons_of_mem _ mem)) after
    exact follow_due (pos call mem_cons_self) due later

theorem calls_keep_iff (pos : ∀ call ∈ calls, Positive call) (pending : deadline ev = some key)
    (due : key ≤ now) : calls.foldl (follow now) deadline ev = some key ↔ ¬Deletes now key ev calls := by
  induction calls generalizing deadline with
  | nil => simp [Deletes, pending]
  | cons call calls ih =>
    have rest : ∀ other ∈ calls, Positive other := fun other mem => pos other (mem_cons_of_mem _ mem)
    have here := pos call mem_cons_self
    rw [foldl_cons]
    by_cases deletes : DeletesBy now key ev call
    · have gone := follow_deletes here pending deletes
      constructor
      · intro after
        exact absurd (gone key (calls_due rest due after)) (not_lt.mpr due)
      · intro spared
        exact absurd ⟨call, mem_cons_self, deletes⟩ spared
    · rw [ih rest (follow_keeps pending deletes)]
      simp [Deletes, deletes]

section

variable {handlers : List (List Call)} {other : Address} (pos : ∀ call ∈ handlers.headD [], Positive call)
include pos

theorem turn_due (due : key ≤ now) (after : turn now deadline ev handlers other = some key) :
    other ≠ ev ∧ deadline other = some key := by
  have before := calls_due pos due after
  by_cases same : other = ev
  · simp [same] at before
  · rw [update_of_ne same] at before
    exact ⟨same, before⟩

theorem turn_keeps_iff (pending : deadline other = some key) (due : key ≤ now) (differ : other ≠ ev) :
    turn now deadline ev handlers other = some key ↔ ¬Deletes now key other (handlers.headD []) :=
  calls_keep_iff pos ((update_of_ne differ ..).trans pending) due

end

end Deadlines

/-- The handlers that run are those of the timers that are due, in the order of the
deadlines, except for the timers that the handler of an earlier turn takes away. -/
structure RunsDue (now : Nat) (deadline : Deadlines) (handlers : List (List Call))
    (evs : List Address) : Prop where
  due : ∀ ev ∈ evs, ∃ key, deadline ev = some key ∧ key ≤ now
  once : evs.Nodup
  order : evs.Pairwise fun first second =>
    ∀ early late, deadline first = some early → deadline second = some late → early ≤ late
  missed : ∀ ev key, deadline ev = some key → key ≤ now →
    (ev ∉ evs ↔ ∃ j < evs.length, ev ∉ evs.take (j + 1) ∧ Deletes now key ev (handlers.getD j []))

theorem get_handlers_succ (handlers : List (List Call)) (j : Nat) :
    handlers.tail.getD j [] = handlers.getD (j + 1) [] := by
  cases handlers <;> rfl

theorem get_handlers_zero (handlers : List (List Call)) : handlers.headD [] = handlers.getD 0 [] := by
  cases handlers <;> rfl

theorem expires_runs_due {now : Nat} (evs : List Address) {deadline : Deadlines}
    {handlers : List (List Call)}
    (pos : ∀ calls ∈ handlers, ∀ call ∈ calls, Positive call) (expires : Expires now deadline handlers evs) :
    RunsDue now deadline handlers evs := by
  induction evs generalizing deadline handlers with
  | nil =>
    refine ⟨fun ev none_ => (not_mem_nil none_).elim, nodup_nil, List.Pairwise.nil, ?_⟩
    intro ev key pending due
    exact absurd (expires ev key pending) (not_lt.mpr due)
  | cons first evs ih =>
    obtain ⟨⟨key, ⟨pending, least⟩, isDue⟩, rest⟩ := expires
    have here : ∀ call ∈ handlers.headD [], Positive call := by
      cases handlers with
      | nil => exact fun call none_ => (not_mem_nil none_).elim
      | cons calls handlers => exact pos calls mem_cons_self
    have later := ih (fun calls mem => pos calls (mem_of_mem_tail mem)) rest
    have before : ∀ ev ∈ evs, ∃ late, turn now deadline first handlers ev = some late ∧
        deadline ev = some late ∧ late ≤ now ∧ ev ≠ first := by
      intro ev among
      obtain ⟨late, found, due⟩ := later.due ev among
      obtain ⟨differ, was⟩ := turn_due here due found
      exact ⟨late, found, was, due, differ⟩
    constructor
    · intro ev among
      cases mem_cons.mp among with
      | inl same =>
        rw [same]
        exact ⟨key, pending, isDue⟩
      | inr behind =>
        obtain ⟨late, -, was, due, -⟩ := before ev behind
        exact ⟨late, was, due⟩
    · refine nodup_cons.mpr ⟨fun again => ?_, later.once⟩
      obtain ⟨-, -, -, -, differ⟩ := before first again
      exact differ rfl
    · refine pairwise_cons.mpr ⟨?_, ?_⟩
      · intro second _ early late isEarly isLate
        rw [pending] at isEarly
        cases isEarly
        exact least second late isLate
      · apply later.order.imp_of_mem
        intro one two amongOne amongTwo order early late isEarly isLate
        obtain ⟨first', found, was, -⟩ := before one amongOne
        obtain ⟨second', found', was', -⟩ := before two amongTwo
        rw [was] at isEarly
        rw [was'] at isLate
        exact order early late (found.trans isEarly) (found'.trans isLate)
    · intro ev late found due
      by_cases same : ev = first
      · subst same
        constructor
        · exact fun absent => absurd mem_cons_self absent
        · intro ⟨j, _, absent, _⟩
          exact absurd mem_cons_self absent
      · have keeps := turn_keeps_iff here found due same
        by_cases taken : Deletes now late ev (handlers.headD [])
        · have absent : ev ∉ first :: evs := by
            intro among
            obtain ⟨other, next, was, -⟩ := before ev (mem_of_ne_of_mem same among)
            rw [found] at was
            cases was
            exact keeps.mp next taken
          rw [get_handlers_zero] at taken
          refine ⟨fun _ => ⟨0, Nat.succ_pos _, fun again => ?_, taken⟩, fun _ => absent⟩
          exact absent (mem_of_mem_take again)
        · have tail := later.missed ev late (keeps.mpr taken) due
          constructor
          · intro absent
            obtain ⟨j, inside, early, deletes⟩ := tail.mp fun among => absent (mem_cons_of_mem _ among)
            rw [get_handlers_succ] at deletes
            refine ⟨j + 1, Nat.succ_lt_succ inside, ?_, deletes⟩
            rw [take_succ_cons]
            exact not_mem_cons_of_ne_of_not_mem same early
          · intro ⟨j, inside, early, deletes⟩
            cases j with
            | zero =>
              rw [← get_handlers_zero] at deletes
              exact absurd deletes taken
            | succ j =>
              rw [← get_handlers_succ] at deletes
              apply not_mem_cons_of_ne_of_not_mem same
              exact tail.mpr ⟨j, Nat.lt_of_succ_lt_succ inside, not_mem_of_not_mem_cons early, deletes⟩

section Timers

variable {w fuel now : Nat} {sentinel : Address} {deadline : Deadlines} {timers : Timers} {ghost : Rbtree}
  {items : List Item}

theorem holds_first (enough : items.length ≤ fuel) (holds : Holds ghost items) :
    (ghost.root = some ghost.sentinel ↔ items = []) ∧
      ∀ first rest, items = first :: rest → ngxRbtreeMin fuel ghost ghost.root = some (some first.address) ∧
        ∀ item ∈ items, first.key ≤ item.key := by
  obtain ⟨shape, rep, -, rfl, sorted⟩ := holds
  have focus : Represents ghost (plug [] shape) := rep
  have isEmpty := NginxRbtreeUnlink.pointer_eq_sentinel [] focus
  rw [rep.root]
  constructor
  · rw [isEmpty]
    cases shape <;> simp [inorder]
  · intro first rest split
    have filled : shape ≠ .nil := by
      intro none_
      rw [none_] at split
      cases split
    obtain ⟨path, color, item, right, isShape, straight, found⟩ :=
      NginxRbtreeUnlink.min_spec fuel [] enough filled focus
    have leftmost : shape.inorder = item :: (right.inorder ++ after path) := by
      rw [isShape, inorder_plug, straight]
      simp [join, inorder]
    rw [leftmost] at split
    injection split with same others
    subst same
    refine ⟨found, ?_⟩
    rw [leftmost] at sorted ⊢
    intro other mem
    cases mem_cons.mp mem with
    | inl same => rw [same]
    | inr behind => exact (pairwise_cons.mp sorted).1 other behind

theorem keeps_empty (keeps : Keeps w sentinel now deadline timers ghost items) :
    timers.tree.root = some timers.tree.sentinel ↔ items = [] := by
  rw [keeps.tree]
  exact (holds_first le_rfl keeps.holds).1

theorem keeps_earliest (keeps : Keeps w sentinel now deadline timers ghost items)
    (enough : items.length ≤ fuel)
    {first : Item} {rest : List Item} (split : items = first :: rest) :
    ngxRbtreeMin fuel timers.tree timers.tree.root = some (some first.address) ∧
      Earliest deadline first.address first.key := by
  obtain ⟨found, least⟩ := (holds_first enough keeps.holds).2 first rest split
  constructor
  · rw [keeps.tree, min_map]
    exact found
  · refine ⟨(keeps.pending _ _).mp (by rw [split]; exact mem_cons_self), ?_⟩
    intro other late pending
    exact least ⟨other, late⟩ ((keeps.pending other late).mpr pending)

theorem keeps_difference {ev : Address} {key : Nat} (wide : 2 ≤ w)
    (keeps : Keeps w sentinel now deadline timers ghost items) (pending : deadline ev = some key) :
    ngxMsecInt w (((timers.tree.memory ev).key : Int) - (now % 2 ^ w : Nat)) = (key : Int) - now := by
  obtain ⟨behind, ahead⟩ := keeps.window ev key pending
  rw [key_of_pending keeps pending]
  exact msec_int_words wide (by omega) (by omega)

theorem find_timer_earliest (wide : 2 ≤ w) (keeps : Keeps w sentinel now deadline timers ghost items)
    (enough : items.length ≤ fuel) :
    ((∀ ev, deadline ev = none) → ngxEventFindTimer w fuel (now % 2 ^ w) timers =
      some (ngxTimerInfinite w)) ∧
      ∀ ev key, Earliest deadline ev key →
        ngxEventFindTimer w fuel (now % 2 ^ w) timers = some (key - now) := by
  constructor
  · intro none_
    have empty : items = [] := by
      apply eq_nil_iff_forall_not_mem.mpr
      intro item mem
      have pending := (keeps.pending item.address item.key).mp mem
      rw [none_] at pending
      cases pending
    rw [ngxEventFindTimer, if_pos ((keeps_empty keeps).mpr empty)]
  · intro ev key earliest
    obtain ⟨pending, least⟩ := earliest
    have mem := (keeps.pending ev key).mpr pending
    have filled : items ≠ [] := ne_nil_of_mem mem
    obtain ⟨first, rest, split⟩ := exists_cons_of_ne_nil filled
    obtain ⟨found, firstPending, firstLeast⟩ := keeps_earliest keeps enough split
    have same : first.key = key :=
      le_antisymm (firstLeast ev key pending) (least first.address first.key firstPending)
    have difference := keeps_difference wide keeps firstPending
    rw [ngxEventFindTimer, if_neg (mt (keeps_empty keeps).mp filled), found]
    simp only [Option.bind_eq_bind, Option.bind_some, load_some, difference, same]
    split_ifs
    · congr 1
      omega
    · congr 1
      omega

def totalCalls (handlers : List (List Call)) : Nat := (handlers.map List.length).sum

theorem total_calls_split (handlers : List (List Call)) :
    totalCalls handlers = (handlers.headD []).length + totalCalls handlers.tail := by
  cases handlers with
  | nil => rfl
  | cons calls handlers => exact sum_cons

theorem due_count_taken {first : Item} {rest : List Item} (due : first.key ≤ now) :
    dueCount now ((first :: rest).filter fun item => decide (item.address ≠ first.address)) <
      dueCount now (first :: rest) := by
  have removed : (first :: rest).filter (fun item => decide (item.address ≠ first.address)) =
      rest.filter fun item => decide (item.address ≠ first.address) := filter_cons_of_neg (by simp)
  have isDue : decide (first.key ≤ now) = true := decide_eq_true due
  have fewer := due_count_filter now rest fun item => decide (item.address ≠ first.address)
  rw [removed]
  have count : dueCount now (first :: rest) = dueCount now rest + 1 := countP_cons_of_pos isDue
  rw [count]
  exact Nat.lt_succ_of_le fewer

def Cleared (fired : Fired) : Prop :=
  fired.timers.timerSet fired.ev = false ∧ fired.timers.timedout fired.ev = true

theorem expire_loop_expires (wide : 2 ≤ w) {turns : Nat} {handlers : List (List Call)}
    (allowed : ∀ calls ∈ handlers, ∀ call ∈ calls, Allowed w sentinel call ∧ Positive call)
    (keeps : Keeps w sentinel now deadline timers ghost items) (few : dueCount now items < turns)
    (enough : items.length + totalCalls handlers + 2 ≤ fuel) :
    ∃ fired last, expireLoop w fuel (now % 2 ^ w) turns timers handlers = some (fired, last) ∧
      Expires now deadline handlers (fired.map Fired.ev) ∧ (∀ each ∈ fired, Cleared each) ∧
      ∃ other later, Keeps w sentinel now
        (expired now deadline handlers (fired.map Fired.ev)) last other later ∧
        later.length ≤ items.length + totalCalls handlers := by
  induction turns generalizing timers ghost items deadline handlers with
  | zero => cases few
  | succ turns ih =>
    rw [expireLoop]
    by_cases empty : items = []
    · have none_ : ∀ ev key, deadline ev = some key → now < key := by
        intro ev key pending
        have mem := (keeps.pending ev key).mpr pending
        rw [empty] at mem
        cases mem
      rw [if_pos ((keeps_empty keeps).mpr empty)]
      exact ⟨[], timers, rfl, none_, fun each among => (not_mem_nil among).elim, ghost, items, keeps,
        Nat.le_add_right _ _⟩
    · obtain ⟨first, rest, rfl⟩ := exists_cons_of_ne_nil empty
      obtain ⟨found, pending, least⟩ :=
        @keeps_earliest w fuel now sentinel deadline timers ghost (first :: rest) keeps
          (by omega) first rest rfl
      have difference := keeps_difference wide keeps pending
      rw [if_neg (mt (keeps_empty keeps).mp empty), found]
      simp only [Option.bind_eq_bind, Option.bind_some, difference]
      by_cases later : now < first.key
      · have notDue : ∀ ev key, deadline ev = some key → now < key := fun ev key found =>
          lt_of_lt_of_le later (least ev key found)
        rw [if_pos (by omega)]
        exact ⟨[], timers, rfl, notDue, fun each among => (not_mem_nil among).elim, ghost, first :: rest,
          keeps, Nat.le_add_right _ _⟩
      · have due := Nat.le_of_not_lt later
        obtain ⟨tree, other, deleted, deletedKeeps⟩ :=
          @deleted_keeps w fuel now sentinel first.address deadline timers ghost
            (first :: rest) first.key keeps
            pending (by omega)
        have shorter := length_filter_le (fun item : Item => decide (item.address ≠ first.address))
          (first :: rest)
        have split := total_calls_split handlers
        have headAllowed : ∀ call ∈ handlers.headD [], Allowed w sentinel call ∧ Positive call := by
          cases handlers with
          | nil => exact fun call none_ => (not_mem_nil none_).elim
          | cons calls handlers => exact allowed calls mem_cons_self
        have room : ((first :: rest).filter fun item => decide (item.address ≠ first.address)).length +
            (handlers.headD []).length + 2 ≤ fuel := by omega
        obtain ⟨after, ran, middle, behind, afterKeeps, longer, fewer⟩ :=
          calls_follow wide (handlers.headD [])
          (fun call mem => (headAllowed call mem).1)
          (deletedKeeps (update timers.timedout first.address true)) room
        have count := fewer fun call mem => (headAllowed call mem).2
        have taken := @due_count_taken now first rest due
        obtain ⟨fired, last, done, expires, cleared, final, left, finalKeeps, size⟩ :=
          @ih _ after middle behind handlers.tail
            (fun calls mem => allowed calls (mem_of_mem_tail mem)) afterKeeps (by omega) (by omega)
        rw [if_neg (by omega), deleted]
        simp only [Option.bind_some, ran, done]
        refine ⟨_, last, rfl, ⟨⟨first.key, ⟨pending, least⟩, due⟩, expires⟩, ?_, final,
          left, finalKeeps, by omega⟩
        intro each among
        cases mem_cons.mp among with
        | inl same =>
          rw [same]
          exact ⟨update_self .., update_self ..⟩
        | inr next => exact cleared each next

end Timers

end ServerCore.NginxEventTimerExpiry
