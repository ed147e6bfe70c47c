import ServerCore.NginxEventTimerExpiry

/-!
# Event timers while the clock goes round

A run starts with no timer pending and is made of calls, of expirations and of steps
of the clock, which is a number here and a word for the code. The clock stays within a
quarter of the range of a word behind the earliest deadline, and so in every state the
timers keep the deadlines as if words had no end.
-/

namespace ServerCore.NginxEventTimerRuns

open NginxRbtree NginxRbtree.Rbtree
open NginxRbtreeShape NginxRbtreeKeys NginxEventTimer NginxEventTimerOrder NginxEventTimerWindow
open NginxEventTimerExpiry Function

def HandlersAllowed (w : Nat) (sentinel : Address) (handlers : List (List Call)) : Prop :=
  ∀ calls ∈ handlers, ∀ call ∈ calls, Allowed w sentinel call ∧ Positive call

/-- The states of a run, with the clock and the deadlines; `size` calls were made so far. -/
inductive Reached (w : Nat) (sentinel : Address) : Nat → Nat → Deadlines → Timers → Prop where
  | init {memory : Address → Node} (words : ∀ addr, (memory addr).key < 2 ^ w) (now : Nat)
      (timedout : Address → Bool) :
      Reached w sentinel 0 now (fun _ => none) (ngxEventTimerInit sentinel memory timedout)
  | tick {size now later : Nat} {deadline : Deadlines} {timers : Timers}
      (before : Reached w sentinel size now deadline timers) (ahead : now ≤ later)
      (behind : ∀ ev key, deadline ev = some key → later ≤ key + 2 ^ (w - 2)) :
      Reached w sentinel size later deadline timers
  | call {size now fuel : Nat} {deadline : Deadlines} {timers after : Timers} {call : Call}
      (before : Reached w sentinel size now deadline timers) (allowed : Allowed w sentinel call)
      (enough : size + 2 ≤ fuel) (done : perform w fuel (now % 2 ^ w) timers call = some after) :
      Reached w sentinel (size + 1) now (follow now deadline call) after
  | expire {size now fuel : Nat} {deadline : Deadlines} {timers last : Timers} {handlers : List (List Call)}
      {fired : List Fired} (before : Reached w sentinel size now deadline timers)
      (allowed : HandlersAllowed w sentinel handlers) (enough : size + totalCalls handlers + 3 ≤ fuel)
      (expires : ngxEventExpireTimers w fuel (now % 2 ^ w) timers handlers = some (fired, last)) :
      Reached w sentinel (size + totalCalls handlers) now
        (expired now deadline handlers (fired.map Fired.ev)) last

theorem init_keeps {w : Nat} {sentinel : Address} {memory : Address → Node}
    (words : ∀ addr, (memory addr).key < 2 ^ w) {now : Nat} {timedout : Address → Bool} :
    Keeps w sentinel now (fun _ => none) (ngxEventTimerInit sentinel memory timedout)
      (ngxRbtreeInit sentinel memory) [] := by
  have isWord : ∀ addr, ((ngxRbtreeInit sentinel memory).memory addr).key < 2 ^ w := by
    intro addr
    by_cases own : addr = sentinel
    · subst own
      simpa [ngxRbtreeInit, Node.setColor] using words addr
    · simpa [ngxRbtreeInit, own] using words addr
  refine ⟨?_, rfl, NginxRbtreeRuns.init_holds sentinel memory, by simp, fun _ => rfl, by simp⟩
  have same : (fun addr => mapNode (word w) ((ngxRbtreeInit sentinel memory).memory addr)) =
      (ngxRbtreeInit sentinel memory).memory := by
    funext addr
    unfold mapNode word
    rw [Nat.mod_eq_of_lt (isWord addr)]
  unfold mapKeys
  rw [same]
  rfl

section Runs

variable {w size now fuel : Nat} {sentinel : Address} {deadline : Deadlines} {timers : Timers}

variable {ghost : Rbtree} {items : List Item}

theorem keeps_expires {handlers : List (List Call)} (wide : 2 ≤ w)
    (allowed : HandlersAllowed w sentinel handlers)
    (keeps : Keeps w sentinel now deadline timers ghost items)
    (fits : items.length ≤ size) (enough : size + totalCalls handlers + 3 ≤ fuel) :
    ∃ fired last, ngxEventExpireTimers w fuel (now % 2 ^ w) timers handlers = some (fired, last) ∧
      Expires now deadline handlers (fired.map Fired.ev) ∧ (∀ each ∈ fired, Cleared each) ∧
      ∃ other later, Keeps w sentinel now
        (expired now deadline handlers (fired.map Fired.ev)) last other later ∧
        later.length ≤ items.length + totalCalls handlers := by
  have counted : dueCount now items ≤ items.length := List.countP_le_length
  exact expire_loop_expires wide allowed keeps (by omega) (by omega)

theorem reached_keeps (wide : 2 ≤ w) (reached : Reached w sentinel size now deadline timers) :
    ∃ ghost items, Keeps w sentinel now deadline timers ghost items ∧ items.length ≤ size := by
  induction reached with
  | init words now timedout => exact ⟨_, [], init_keeps words, Nat.le_refl _⟩
  | tick before ahead behind ih =>
    obtain ⟨ghost, items, keeps, fits⟩ := ih
    refine ⟨ghost, items, { keeps with window := ?_ }, fits⟩
    intro ev key pending
    have window := keeps.window ev key pending
    exact ⟨behind ev key pending, by omega⟩
  | @call size now fuel deadline timers after call before allowed enough done ih =>
    obtain ⟨ghost, items, keeps, fits⟩ := ih
    obtain ⟨after, ran, other, later, afterKeeps, longer, -⟩ :=
      perform_follows wide allowed keeps (by omega : items.length + 2 ≤ fuel)
    rw [done] at ran
    cases ran
    exact ⟨other, later, afterKeeps, by omega⟩
  | expire before allowed enough expires ih =>
    obtain ⟨ghost, items, keeps, fits⟩ := ih
    obtain ⟨fired, last, ran, -, -, other, later, lastKeeps, longer⟩ :=
      keeps_expires wide allowed keeps fits enough
    rw [expires] at ran
    injection ran with ran
    injection ran with sameFired sameLast
    subst sameFired sameLast
    exact ⟨other, later, lastKeeps, by omega⟩

structure Behaves (w : Nat) (sentinel : Address) (size now : Nat) (deadline : Deadlines) (timers : Timers) :
    Prop where
  set : ∀ ev, timers.timerSet ev = (deadline ev).isSome
  key : ∀ ev key, deadline ev = some key → (timers.tree.memory ev).key = key % 2 ^ w
  findNone : ∀ fuel, size + 2 ≤ fuel → (∀ ev, deadline ev = none) →
    ngxEventFindTimer w fuel (now % 2 ^ w) timers = some (ngxTimerInfinite w)
  find : ∀ fuel ev key, size + 2 ≤ fuel → Earliest deadline ev key →
    ngxEventFindTimer w fuel (now % 2 ^ w) timers = some (key - now)
  call : ∀ fuel call, size + 2 ≤ fuel → Allowed w sentinel call →
    ∃ after, perform w fuel (now % 2 ^ w) timers call = some after
  rearm : ∀ fuel ev timer old, size + 2 ≤ fuel → Allowed w sentinel (.add ev timer) →
    deadline ev = some old →
    ∃ after, ngxEventAddTimer w fuel (now % 2 ^ w) timers ev timer = some after ∧ after.timerSet ev = true ∧
      (after.tree.memory ev).key =
        (if ngxAbs (((now + timer : Nat) : Int) - old) < ngxTimerLazyDelay then old else now + timer) % 2 ^ w
  expire : ∀ fuel handlers, size + totalCalls handlers + 3 ≤ fuel → HandlersAllowed w sentinel handlers →
    ∃ fired last, ngxEventExpireTimers w fuel (now % 2 ^ w) timers handlers = some (fired, last) ∧
      RunsDue now deadline handlers (fired.map Fired.ev) ∧ ∀ each ∈ fired, Cleared each

theorem rearm_keeps {ev : Address} {timer old : Nat} (wide : 2 ≤ w)
    (allowed : Allowed w sentinel (.add ev timer)) (keeps : Keeps w sentinel now deadline timers ghost items)
    (enough : items.length + 2 ≤ fuel) (pending : deadline ev = some old) :
    ∃ after, ngxEventAddTimer w fuel (now % 2 ^ w) timers ev timer = some after ∧ after.timerSet ev = true ∧
      (after.tree.memory ev).key =
        (if ngxAbs (((now + timer : Nat) : Int) - old) < ngxTimerLazyDelay then old else
          now + timer) % 2 ^ w := by
  obtain ⟨after, added, other, later, afterKeeps, -⟩ := add_follows wide allowed.1 allowed.2 keeps enough
  have follows : follow now deadline (.add ev timer) ev =
      some (if ngxAbs (((now + timer : Nat) : Int) - old) < ngxTimerLazyDelay then
        old else now + timer) := by
    rw [follow, pending]
    dsimp only
    split_ifs
    · exact pending
    · exact update_self ..
  exact ⟨after, added, set_of_pending afterKeeps follows, key_of_pending afterKeeps follows⟩

theorem timers_across_wrap (w : Nat) (sentinel : Address) (size now : Nat) (deadline : Deadlines)
    (timers : Timers) (wide : 2 ≤ w) (reached : Reached w sentinel size now deadline timers) :
    Behaves w sentinel size now deadline timers := by
  obtain ⟨ghost, items, keeps, fits⟩ := reached_keeps wide reached
  constructor
  · exact keeps.set
  · exact fun ev key pending => key_of_pending keeps pending
  · intro fuel enough none_
    exact (find_timer_earliest wide keeps (by omega)).1 none_
  · intro fuel ev key enough earliest
    exact (find_timer_earliest wide keeps (by omega)).2 ev key earliest
  · intro fuel call enough allowed
    obtain ⟨after, done, -⟩ := perform_follows wide allowed keeps (by omega : items.length + 2 ≤ fuel)
    exact ⟨after, done⟩
  · intro fuel ev timer old enough allowed pending
    exact rearm_keeps wide allowed keeps (by omega) pending
  · intro fuel handlers enough allowed
    obtain ⟨fired, last, ran, expires, cleared, -⟩ := keeps_expires wide allowed keeps fits enough
    have pos : ∀ calls ∈ handlers, ∀ call ∈ calls, Positive call :=
      fun calls among call mem => (allowed calls among call mem).2
    exact ⟨fired, last, ran, expires_runs_due _ pos expires, cleared⟩

/-- After the pause that `ngx_event_find_timer` asks for an earliest timer runs, and none before. -/
theorem pause_ends_at_earliest {ev : Address} {key : Nat} (wide : 2 ≤ w)
    (reached : Reached w sentinel size now deadline timers) (earliest : Earliest deadline ev key)
    (enough : size + 2 ≤ fuel) : ∃ timer, ngxEventFindTimer w fuel (now % 2 ^ w) timers = some timer ∧
      ∀ pause ≤ timer, ∀ handlers fuel, HandlersAllowed w sentinel handlers →
        size + totalCalls handlers + 3 ≤ fuel → ∃ fired last,
          ngxEventExpireTimers w fuel ((now + pause) % 2 ^ w) timers handlers = some (fired, last) ∧
          (pause < timer → fired = []) ∧
          (pause = timer → ∃ first ∈ fired.head?, deadline first.ev = some key) := by
  obtain ⟨ghost, items, keeps, fits⟩ := reached_keeps wide reached
  refine ⟨_, (find_timer_earliest wide keeps (by omega)).2 ev key earliest, ?_⟩
  intro pause short handlers fuel allowed enough
  have later : Reached w sentinel size (now + pause) deadline timers :=
    reached.tick (by omega) fun other late pending => by
      have least := earliest.2 other late pending
      have window := keeps.window ev key earliest.1
      omega
  obtain ⟨ghost, items, keeps, fits⟩ := reached_keeps wide later
  obtain ⟨fired, last, ran, expires, -⟩ := keeps_expires wide allowed keeps fits enough
  refine ⟨fired, last, ran, ?_⟩
  cases fired with
  | nil =>
    have ahead : now + pause < key := expires ev key earliest.1
    exact ⟨fun _ => rfl, fun _ => by omega⟩
  | cons first fired =>
    obtain ⟨⟨found, isEarliest, due⟩, -⟩ := expires
    have same : found = key := le_antisymm (isEarliest.2 ev key earliest.1) (earliest.2 _ found isEarliest.1)
    exact ⟨fun _ => by omega, fun _ => ⟨first, rfl, same ▸ isEarliest.1⟩⟩

end Runs

theorem timers_across_wrap_one_timer :
    ∃ timers, Behaves 32 0 1 (2 ^ 32 + 4) (follow (2 ^ 32 - 2) (fun _ => none) (.add 1 5)) timers := by
  have fresh : Reached 32 0 0 (2 ^ 32 - 2) (fun _ => none)
      (ngxEventTimerInit 0 (fun _ => ⟨0, none, none, none, .red⟩) fun _ => false) :=
    .init (fun _ => by decide) _ _
  have allowed : Allowed 32 0 (.add 1 5) := ⟨by decide, by decide⟩
  obtain ⟨after, done⟩ :=
    (timers_across_wrap 32 0 0 (2 ^ 32 - 2) _ _ (by decide) fresh).call 2 (.add 1 5) (by decide) allowed
  have added := fresh.call allowed (by decide) done
  refine ⟨after, timers_across_wrap 32 0 1 (2 ^ 32 + 4) _ _ (by decide) (added.tick (by decide) ?_)⟩
  intro ev key pending
  change update (fun _ => none) 1 (some (2 ^ 32 - 2 + 5)) ev = some key at pending
  by_cases same : ev = 1
  · subst same
    injection pending with pending
    omega
  · rw [update_of_ne same] at pending
    cases pending

/-- A timer is added at 7 for 5 milliseconds: the pause is 5, and its handler runs then. -/
theorem pause_ends_at_earliest_one_timer : ∃ timers, ngxEventFindTimer 32 3 (7 % 2 ^ 32) timers = some 5 ∧
    ∃ fired last, ngxEventExpireTimers 32 4 ((7 + 5) % 2 ^ 32) timers [[]] = some (fired, last) ∧
      ∃ first ∈ fired.head?, first.ev = 1 := by
  have added := @Reached.call _ _ _ _ 2 _ _ _ (.add 1 5) (@Reached.init 32 0
    (fun _ => ⟨0, none, none, none, .red⟩) (fun _ => by decide) 7 fun _ => false) ⟨by decide, by decide⟩
    (by decide) rfl
  have only : ∀ other late, follow 7 (fun _ => none) (.add 1 5) other = some late →
      other = 1 ∧ late = 12 := by
    intro other late pending
    change update (fun _ => none) 1 (some 12) other = some late at pending
    by_cases same : other = 1 <;> simp_all
  have earliest : Earliest (follow 7 (fun _ => none) (.add 1 5)) 1 12 :=
    ⟨rfl, fun other late pending => (only other late pending).2.ge⟩
  obtain ⟨timer, found, runs⟩ := pause_ends_at_earliest (by decide) added earliest (by decide : 1 + 2 ≤ 3)
  cases found.symm.trans (rfl : ngxEventFindTimer 32 3 (7 % 2 ^ 32) _ = some 5)
  obtain ⟨fired, last, expired, -, due⟩ := runs 5 le_rfl [[]] 4 (by simp [HandlersAllowed]) (by decide)
  obtain ⟨first, isFirst, pending⟩ := due rfl
  exact ⟨_, found, fired, last, expired, first, isFirst, (only _ _ pending).1⟩

end ServerCore.NginxEventTimerRuns
