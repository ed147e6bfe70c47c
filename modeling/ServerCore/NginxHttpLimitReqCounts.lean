import ServerCore.NginxHttpLimitReqRate

/-!
# The nodes that a request takes

A limit that is not the last one counts the node of its key as taken, and the
zone remembers which one it is.
-/

namespace ServerCore.NginxHttpLimitReqCounts

open NginxHttpLimitReq List Function
open NginxHttpLimitReqRate (nodeOf countIn find_eraseP_other find_key lookup_found lookup_absent
  create_node_cases)

variable {rate : Nat} {change : Node → Node} {key : Bytes}

/-- How often the node of a key is taken; a node that does not exist is not. -/
def countOf (ctx : Context) (key : Key) : Nat := countIn ctx.queue key

/-- Nothing is taken, and every node is taken as often as before; one that was taken is
still there. -/
structure Restored (before after : Context) : Prop where
  node : after.node = none
  counts : ∀ key, countOf after key = countOf before key

structure Taken (before after : Context) (key : Key) : Prop where
  node : after.node = some key
  held : countOf after key = countOf before key + 1
  counts : ∀ other ≠ key, countOf after other = countOf before other

section Zone

variable {w now : Nat} {limit : Limit} {before ctx : Context} {key other : Key} {account : Bool}
  {allocs : Bool × Bool} {lr : Node} {rest : List Node}

theorem count_of_node (found : nodeOf ctx key = some lr) : countOf ctx key = lr.count := by
  unfold nodeOf at found
  rw [countOf, countIn, found]
  rfl

theorem count_absent (absent : nodeOf ctx key = none) : countOf ctx key = 0 := by
  unfold nodeOf at absent
  rw [countOf, countIn, absent]
  rfl

theorem count_front (own : lr.key = key) : countIn (lr :: rest) key = lr.count := by
  rw [countIn, find?_cons_of_pos (by simpa using own)]
  rfl

theorem count_behind (differ : lr.key ≠ key) : countIn (lr :: rest) key = countIn rest key := by
  rw [countIn, find?_cons_of_neg (by simpa using differ), countIn]

theorem count_erased (differ : other ≠ key) :
    countIn (ctx.queue.eraseP fun lr => lr.key = key) other = countOf ctx other := by
  rw [countIn, find_eraseP_other differ, countOf, countIn]

/-- A node in front of a queue in which the others are as they were. -/
theorem counts_in_front (queue : List Node) (own : lr.key = key)
    (others : ∀ other ≠ key, countIn rest other = countIn queue other) :
    countIn (lr :: rest) key = lr.count ∧
      ∀ other ≠ key, countIn (lr :: rest) other = countIn queue other := by
  refine ⟨count_front own, fun other differ => ?_⟩
  rw [count_behind fun mine => differ (mine.symm.trans own)]
  exact others other differ

theorem restored_refl (free : ctx.node = none) : Restored ctx ctx := ⟨free, fun _ => rfl⟩

theorem restored_front (own : lr.key = key) (same : lr.count = countOf ctx key)
    (others : ∀ other ≠ key, countIn rest other = countOf ctx other) :
    Restored ctx ⟨rate, lr :: rest, none⟩ := by
  obtain ⟨here, behind⟩ := counts_in_front ctx.queue own others
  refine ⟨rfl, fun other => ?_⟩
  by_cases isOwn : other = key
  · subst isOwn
    exact here.trans same
  · exact behind other isOwn

theorem taken_front (own : lr.key = key) (more : lr.count = countOf ctx key + 1)
    (others : ∀ other ≠ key, countIn rest other = countOf ctx other) :
    Taken ctx ⟨rate, lr :: rest, some key⟩ key := by
  obtain ⟨here, behind⟩ := counts_in_front ctx.queue own others
  exact ⟨rfl, here.trans more, behind⟩

theorem lookup_restored (free : ctx.node = none)
    (ended : (ngxHttpLimitReqLookup w now limit ctx key account allocs).1 ≠ .again) :
    Restored ctx (ngxHttpLimitReqLookup w now limit ctx key account allocs).2.2 := by
  cases found : nodeOf ctx key with
  | none =>
    rw [lookup_absent found] at ended ⊢
    obtain ⟨front, shortened, isError | ⟨-, isOk⟩ | ⟨-, isAgain⟩⟩ :=
      create_node_cases w now ctx key account allocs
    · rw [isError]
      exact ⟨free, shortened.counts⟩
    · rw [isOk, free]
      exact restored_front rfl (count_absent found).symm fun other _ => shortened.counts other
    · rw [isAgain] at ended
      cases ended rfl
  | some lr =>
    have own := find_key found
    have count := count_of_node found
    rw [lookup_found found] at ended ⊢
    split_ifs at ended ⊢ with beyond counted
    · rw [free]
      exact restored_front own count.symm fun other differ => count_erased differ
    · rw [free]
      exact restored_front own count.symm fun other differ => count_erased differ
    · cases ended rfl

theorem lookup_taken (goes : (ngxHttpLimitReqLookup w now limit ctx key account allocs).1 = .again) :
    Taken ctx (ngxHttpLimitReqLookup w now limit ctx key account allocs).2.2 key := by
  cases found : nodeOf ctx key with
  | none =>
    rw [lookup_absent found] at goes ⊢
    obtain ⟨front, shortened, isError | ⟨-, isOk⟩ | ⟨-, isAgain⟩⟩ :=
      create_node_cases w now ctx key account allocs
    · rw [isError] at goes
      cases goes
    · rw [isOk] at goes
      cases goes
    · rw [isAgain]
      refine taken_front rfl ?_ fun other _ => shortened.counts other
      rw [count_absent found]
  | some lr =>
    have own := find_key found
    have count := count_of_node found
    rw [lookup_found found] at goes ⊢
    split_ifs at goes ⊢ with beyond counted
    refine taken_front own ?_ fun other differ => count_erased differ
    rw [count]

theorem lookup_counted : (ngxHttpLimitReqLookup w now limit ctx key true allocs).1 ≠ .again := by
  cases found : nodeOf ctx key with
  | none =>
    rw [lookup_absent found]
    obtain ⟨front, -, isError | ⟨-, isOk⟩ | ⟨isFalse, -⟩⟩ := create_node_cases w now ctx key true allocs
    · rw [isError]
      nofun
    · rw [isOk]
      nofun
    · cases isFalse
  | some lr =>
    rw [lookup_found found, if_pos (show true = true from rfl)]
    split_ifs
    · nofun
    · nofun

theorem lookup_not_declined : (ngxHttpLimitReqLookup w now limit ctx key account allocs).1 ≠ .declined := by
  cases found : nodeOf ctx key with
  | none =>
    rw [lookup_absent found]
    obtain ⟨front, -, ended | ⟨-, ended⟩ | ⟨-, ended⟩⟩ := create_node_cases w now ctx key account allocs
    all_goals
      rw [ended]
      nofun
  | some lr =>
    rw [lookup_found found]
    split_ifs <;> nofun

theorem find_change_node (keeps : ∀ lr, (change lr).key = lr.key) (queue : List Node) (other : Key) :
    (changeNode key change queue).find? (fun lr => lr.key = other) =
      if other = key then (queue.find? fun lr => lr.key = other).map change else
        queue.find? fun lr => lr.key = other := by
  induction queue with
  | nil => simp [changeNode]
  | cons lr rest ih =>
    rw [changeNode]
    by_cases here : lr.key = key
    · rw [if_pos here]
      by_cases isOther : lr.key = other
      · rw [find?_cons_of_pos (by simpa [keeps] using isOther), find?_cons_of_pos (by simpa using isOther),
          if_pos (isOther.symm.trans here)]
        rfl
      · have differ : other ≠ key := fun same => isOther (here.trans same.symm)
        rw [find?_cons_of_neg (by simpa [keeps] using isOther), find?_cons_of_neg (by simpa using isOther),
          if_neg differ]
    · rw [if_neg here]
      by_cases isOther : lr.key = other
      · have differ : other ≠ key := fun same => here (isOther.trans same)
        rw [find?_cons_of_pos (by simpa using isOther), find?_cons_of_pos (by simpa using isOther),
          if_neg differ]
      · rw [find?_cons_of_neg (by simpa using isOther), find?_cons_of_neg (by simpa using isOther), ih]

theorem restored_of_taken (keeps : ∀ lr, (change lr).key = lr.key)
    (less : ∀ lr, (change lr).count = lr.count - 1) (taken : Taken before ctx key) :
    Restored before { ctx with queue := changeNode key change ctx.queue, node := none } := by
  refine ⟨rfl, fun other => ?_⟩
  rw [countOf, countIn, find_change_node keeps]
  by_cases own : other = key
  · subst own
    have held := taken.held
    rw [countOf, countIn] at held
    cases found : ctx.queue.find? fun lr => lr.key = other with
    | none =>
      rw [found] at held
      cases held
    | some lr =>
      rw [found] at held
      have count : lr.count = countOf before other + 1 := held
      simp [less, count]
  · rw [if_neg own]
    exact taken.counts other own

theorem release_restored (taken : Taken before ctx key) : Restored before (releaseNode ctx) := by
  rw [releaseNode, taken.node]
  exact restored_of_taken (fun _ => rfl) (fun _ => rfl) taken

theorem account_restored (taken : Taken before ctx key) : Restored before (accountNode w now ctx).1 := by
  rw [accountNode, taken.node]
  exact restored_of_taken (fun _ => rfl) (fun _ => rfl) taken

theorem release_free (restored : Restored before ctx) : releaseNode ctx = ctx := by
  rw [releaseNode, restored.node]

theorem account_free (restored : Restored before ctx) : (accountNode w now ctx).1 = ctx := by
  rw [accountNode, restored.node]

end Zone

def Counts (check : Check) : Prop := ∃ key, check.value = some key ∧ limited key = true

/-- The key can be evaluated, and the limit lets the request go on to the next one. -/
def Passes (crc : Bytes → Nat) (w now : Nat) (zones : Zones) (check : Check) : Prop :=
  ∃ key, check.value = some key ∧ (limited key = true →
    (ngxHttpLimitReqLookup w now check.limit (zones check.limit.zone)
      (crc key, key) false check.allocs).1 = .again)

/-- The key of a limit cannot be evaluated after the request has gone through limits of
which one was looked up. -/
def FailsLate (crc : Bytes → Nat) (w now : Nat) (zones : Zones) (checks : List Check) : Prop :=
  ∃ passed check rest, checks = passed ++ check :: rest ∧ check.value = none ∧
    (∀ earlier ∈ passed, Passes crc w now zones earlier) ∧ ∃ earlier ∈ passed, Counts earlier

structure Walked (crc : Bytes → Nat) (w now : Nat) (start zones : Zones) (passed : List Check) : Prop where
  passes : ∀ check ∈ passed, Passes crc w now start check
  zone : ∀ z, (Restored (start z) (zones z) ∧ ∀ check ∈ passed, check.limit.zone = z → ¬Counts check) ∨
    ∃ check ∈ passed, check.limit.zone = z ∧ Counts check ∧ ∃ key, Taken (start z) (zones z) key

/-- The zones when the loop ends with `n`. -/
def Ended (start zones : Zones) (passed : List Check) : Prop :=
  ∀ z, Restored (start z) (zones z) ∨ ∃ check ∈ passed, check.limit.zone = z ∧
  ∃ key, Taken (start z) (zones z) key

section Loop

variable {crc : Bytes → Nat} {w now : Nat} {start zones : Zones} {passed rest : List Check} {check : Check}

section

variable (walked : Walked crc w now start zones passed)
include walked

theorem ended_of_walked : Ended start zones passed := by
  intro z
  rcases walked.zone z with ⟨restored, -⟩ | ⟨held, mem, own, -, taken⟩
  · exact .inl restored
  · exact .inr ⟨held, mem, own, taken⟩

theorem walked_skip (value : check.value = some key)
    (skipped : ¬limited key = true) : Walked crc w now start zones (passed ++ [check]) := by
  refine ⟨?_, fun z => ?_⟩
  · intro other mem
    rcases mem_append.mp mem with before | here
    · exact walked.passes other before
    · rw [mem_singleton.mp here]
      exact ⟨key, value, fun isLimited => absurd isLimited skipped⟩
  · rcases walked.zone z with ⟨restored, uncounted⟩ | ⟨held, mem, own, counts, taken⟩
    · refine .inl ⟨restored, ?_⟩
      intro other mem own
      rcases mem_append.mp mem with before | here
      · exact uncounted other before own
      · rw [mem_singleton.mp here]
        rintro ⟨key', value', isLimited⟩
        rw [value] at value'
        injection value' with same
        exact skipped (same ▸ isLimited)
    · exact .inr ⟨held, mem_append_left _ mem, own, counts, taken⟩

theorem walked_again (value : check.value = some key)
    (isLimited : limited key = true) (untouched : zones check.limit.zone = start check.limit.zone)
    (goes : (ngxHttpLimitReqLookup w now check.limit (zones check.limit.zone)
      (crc key, key) false check.allocs).1 = .again) :
    Walked crc w now start (update zones check.limit.zone
      (ngxHttpLimitReqLookup w now check.limit (zones check.limit.zone)
        (crc key, key) false check.allocs).2.2)
      (passed ++ [check]) := by
  have taken := lookup_taken goes
  rw [untouched] at goes taken ⊢
  refine ⟨?_, fun z => ?_⟩
  · intro other mem
    rcases mem_append.mp mem with before | here
    · exact walked.passes other before
    · rw [mem_singleton.mp here]
      exact ⟨key, value, fun _ => goes⟩
  · by_cases own : check.limit.zone = z
    · subst own
      rw [update_self]
      exact .inr ⟨check, mem_append_right _ (mem_singleton_self _), rfl, ⟨key, value, isLimited⟩, _, taken⟩
    · rw [update_of_ne (Ne.symm own)]
      rcases walked.zone z with ⟨restored, uncounted⟩ | ⟨held, mem, same, counts, kept⟩
      · refine .inl ⟨restored, ?_⟩
        intro other mem same
        rcases mem_append.mp mem with before | here
        · exact uncounted other before same
        · rw [mem_singleton.mp here] at same
          exact absurd same own
      · exact .inr ⟨held, mem_append_left _ mem, same, counts, kept⟩

theorem walked_stop {ctx : Context} {z : Nat}
    (restored : Restored (start z) ctx) : Ended start (update zones z ctx) passed := by
  intro other
  by_cases own : other = z
  · subst own
    rw [update_self]
    exact .inl restored
  · rw [update_of_ne own]
    exact ended_of_walked walked other

end

def Outcome (crc : Bytes → Nat) (w now : Nat) (start : Zones) (checks : List Check) : Zones × LoopEnd → Prop
  | (zones, .failed) => ∃ passed check rest, checks = passed ++ check :: rest ∧ check.value = none ∧
      Walked crc w now start zones passed
  | (zones, .ended rc n _ limit) => Ended start zones (checks.take n) ∧
      (rc = .declined → ∀ z, Restored (start z) (zones z)) ∧ (limit = none → rc = .declined)

theorem limit_loop_outcome (free : ∀ z, (start z).node = none) (rest passed : List Check)
    (rc : Rc) (excess : Nat)
    (limit : Option Limit) (walked : Walked crc w now start zones passed)
    (declined : rc = .declined → ∀ z, Restored (start z) (zones z)) (last : limit = none → rc = .declined)
    (untouched : ∀ check ∈ rest, zones check.limit.zone = start check.limit.zone)
    (distinct : (rest.map fun check => check.limit.zone).Nodup) :
    Outcome crc w now start (passed ++ rest)
      (limitLoop crc w now rest rc passed.length excess limit zones) := by
  induction rest generalizing passed rc excess limit zones with
  | nil =>
    refine ⟨?_, declined, last⟩
    rw [append_nil, take_length]
    exact ended_of_walked walked
  | cons check rest ih =>
    obtain ⟨apart, restDistinct⟩ := nodup_cons.mp distinct
    have here := untouched check (mem_cons_self ..)
    have later : ∀ other ∈ rest, zones other.limit.zone = start other.limit.zone :=
      fun other mem => untouched other (mem_cons_of_mem _ mem)
    have split : passed ++ check :: rest = (passed ++ [check]) ++ rest := by
      rw [append_assoc]
      rfl
    have length : (passed ++ [check]).length = passed.length + 1 := length_append
    cases value : check.value with
    | none =>
      rw [limitLoop, value]
      exact ⟨passed, check, rest, rfl, value, walked⟩
    | some key =>
      by_cases isLimited : limited key = true
      · by_cases goes : (ngxHttpLimitReqLookup w now check.limit (zones check.limit.zone)
          (crc key, key) rest.isEmpty
          check.allocs).1 = .again
        · have more : rest.isEmpty = false := by
            by_contra isLast
            rw [Bool.not_eq_false] at isLast
            rw [isLast] at goes
            exact lookup_counted goes
          rw [more] at goes
          have next := walked_again walked value isLimited here goes
          rw [limitLoop, value]
          simp only [isLimited, if_true, more, goes, ne_eq, not_true_eq_false, if_false, split]
          rw [← length]
          refine ih _ _ _ _ next (nofun) (nofun) ?_ restDistinct
          intro other mem
          have differ : other.limit.zone ≠ check.limit.zone := by
            intro same
            exact apart (mem_map.mpr ⟨other, mem, same⟩)
          rw [update_of_ne differ]
          exact later other mem
        · have notDeclined :=
            @lookup_not_declined w now check.limit (zones check.limit.zone) (crc key, key) rest.isEmpty
            check.allocs
          have restored := lookup_restored (by rw [here]; exact free _) goes
          rw [here] at restored
          have stopped := walked_stop walked restored
          rw [limitLoop, value]
          simp only [isLimited, if_true, goes, ne_eq, not_false_eq_true]
          refine ⟨?_, fun isDeclined => absurd isDeclined notDeclined, nofun⟩
          rw [take_left, here]
          exact stopped
      · have next := walked_skip walked value isLimited
        rw [limitLoop, value]
        simp only [isLimited, split]
        rw [← length]
        exact ih _ _ _ _ next declined (nofun) later restDistinct

theorem limit_loop_fails (before passed : List Check) (rc : Rc) (n excess : Nat) (limit : Option Limit)
    (value : check.value = none) (walked : Walked crc w now start zones passed)
    (passes : ∀ earlier ∈ before, Passes crc w now start earlier)
    (untouched : ∀ earlier ∈ before, zones earlier.limit.zone = start earlier.limit.zone)
    (distinct : (before.map fun check => check.limit.zone).Nodup) :
    ∃ zones', limitLoop crc w now (before ++ check :: rest) rc n excess limit zones = (zones', .failed) ∧
      Walked crc w now start zones' (passed ++ before) := by
  induction before generalizing passed rc n excess limit zones with
  | nil =>
    refine ⟨zones, ?_, by rwa [append_nil]⟩
    rw [nil_append, limitLoop, value]
  | cons first before ih =>
    obtain ⟨apart, restDistinct⟩ := nodup_cons.mp distinct
    have here := untouched first (mem_cons_self ..)
    have later : ∀ other ∈ before, zones other.limit.zone = start other.limit.zone :=
      fun other mem => untouched other (mem_cons_of_mem _ mem)
    have restPasses : ∀ other ∈ before, Passes crc w now start other :=
      fun other mem => passes other (mem_cons_of_mem _ mem)
    have split : passed ++ first :: before = (passed ++ [first]) ++ before := by
      rw [append_assoc]
      rfl
    have more : (before ++ check :: rest).isEmpty = false := by
      cases before <;> rfl
    obtain ⟨key, isKey, goes⟩ := passes first (mem_cons_self ..)
    rw [split, cons_append, limitLoop, isKey]
    by_cases isLimited : limited key = true
    · have goes := goes isLimited
      rw [← here] at goes
      have next := walked_again walked isKey isLimited here goes
      simp only [isLimited, if_true, more, goes, ne_eq, not_true_eq_false, if_false]
      refine ih _ _ _ _ _ next restPasses ?_ restDistinct
      intro other mem
      have differ : other.limit.zone ≠ first.limit.zone := by
        intro same
        exact apart (mem_map.mpr ⟨other, mem, same⟩)
      rw [update_of_ne differ]
      exact later other mem
    · have next := walked_skip walked isKey isLimited
      simp only [isLimited]
      exact ih _ _ _ _ _ next restPasses later restDistinct

theorem ended_step {give : Context → Context}
    (taken : ∀ before ctx key, Taken before ctx key → Restored before (give ctx))
    (free : ∀ before ctx, Restored before ctx → give ctx = ctx) (ended : Ended start zones (check :: rest)) :
    Ended start (update zones check.limit.zone (give (zones check.limit.zone))) rest := by
  intro z
  by_cases own : z = check.limit.zone
  · subst own
    rw [update_self]
    rcases ended check.limit.zone with restored | ⟨-, -, -, key, held⟩
    · rw [free _ _ restored]
      exact .inl restored
    · exact .inl (taken _ _ key held)
  · rw [update_of_ne own]
    rcases ended z with restored | ⟨other, mem, same, held⟩
    · exact .inl restored
    · rcases mem_cons.mp mem with rfl | later
      · exact absurd same.symm own
      · exact .inr ⟨other, later, same, held⟩

theorem restored_of_ended (ended : Ended start zones []) (z : Nat) : Restored (start z) (zones z) := by
  rcases ended z with restored | ⟨other, mem, -⟩
  · exact restored
  · cases mem

theorem release_loop_restored (limits : List Check) (ended : Ended start zones limits) (z : Nat) :
    Restored (start z) (releaseLoop limits zones z) := by
  induction limits generalizing zones with
  | nil => exact restored_of_ended ended z
  | cons check limits ih =>
    exact ih (ended_step (fun _ _ _ held => release_restored held)
      (fun _ _ restored => release_free restored) ended)

theorem account_loop_restored (limits : List Check) (maxDelay : Nat)
    (ended : Ended start zones limits) (z : Nat) :
    Restored (start z) ((accountLoop w now limits zones maxDelay).1 z) := by
  induction limits generalizing zones maxDelay with
  | nil => exact restored_of_ended ended z
  | cons check limits ih =>
    have next := @ended_step start zones limits check (fun ctx => (accountNode w now ctx).1)
      (fun _ _ _ held => account_restored held)
      (fun _ _ restored => account_free restored) ended
    rw [accountLoop]
    dsimp only
    cases (accountNode w now (zones check.limit.zone)).2 with
    | none => exact ih _ next
    | some excess =>
      split_ifs
      · exact ih _ next
      · exact ih _ next

theorem ended_reverse (ended : Ended start zones passed) : Ended start zones passed.reverse := by
  intro z
  rcases ended z with restored | ⟨check, mem, rest⟩
  · exact .inl restored
  · exact .inr ⟨check, mem_reverse.mpr mem, rest⟩

end Loop

section Handler

variable {crc : Bytes → Nat} {w now : Nat} {limitReqSet readEvent : Bool}
    {checks : List Check} {zones : Zones}

theorem walked_nil (free : ∀ z, (zones z).node = none) : Walked crc w now zones zones [] :=
  ⟨nofun,
    fun z => .inl ⟨restored_refl (free z), nofun⟩⟩

theorem handler_restores (free : ∀ z, (zones z).node = none)
    (distinct : (checks.map fun check => check.limit.zone).Nodup)
    (sound : limitReqSet = true ∨ ¬FailsLate crc w now zones checks) (z : Nat) :
    Restored (zones z) ((ngxHttpLimitReqHandler crc w now limitReqSet readEvent checks zones).1 z) := by
  have outcome := limit_loop_outcome free checks [] .declined 0 none (@walked_nil crc w now zones free)
    (fun _ z => restored_refl (free z)) (fun _ => rfl) (fun _ _ => rfl) distinct
  rw [ngxHttpLimitReqHandler]
  by_cases already : limitReqSet = true
  · rw [if_pos already]
    exact restored_refl (free z)
  rw [if_neg already]
  revert outcome
  generalize limitLoop crc w now checks .declined 0 0 none zones = result
  obtain ⟨after, finish⟩ := result
  intro outcome
  cases finish with
  | failed =>
    obtain ⟨passed, check, rest, split, value, walked⟩ := outcome
    rcases walked.zone z with ⟨restored, -⟩ | ⟨held, mem, -, counts, -⟩
    · exact restored
    · rcases sound with isSet | sound
      · exact absurd isSet already
      · exact absurd ⟨passed, check, rest, split, value, walked.passes, held, mem, counts⟩ sound
  | ended rc n excess limit =>
    obtain ⟨ended, declined, last⟩ := outcome
    dsimp only
    by_cases isDeclined : rc = .declined
    · rw [if_pos isDeclined]
      exact declined isDeclined z
    rw [if_neg isDeclined]
    by_cases rejected : rc = .busy ∨ rc = .error
    · rw [if_pos rejected]
      exact release_loop_restored _ (ended_reverse ended) z
    cases limit with
    | none => exact absurd (last rfl) isDeclined
    | some limit =>
      have accounted : ∀ excess, Restored (zones z)
          ((ngxHttpLimitReqAccount w now (checks.take n) excess limit after).1 z) :=
        fun excess => account_loop_restored _ _ (ended_reverse ended) z
      dsimp only
      split_ifs
      · exact accounted _
      · exact accounted _
      · exact accounted _
      · exact accounted _
      · exact accounted _
      · exact accounted _

theorem handler_leaks (free : ∀ z, (zones z).node = none)
    (distinct : (checks.map fun check => check.limit.zone).Nodup)
    (notSet : limitReqSet ≠ true) (late : FailsLate crc w now zones checks) :
    ∃ z, ((ngxHttpLimitReqHandler crc w now limitReqSet readEvent checks zones).1 z).node ≠ none := by
  obtain ⟨passed, check, rest, rfl, value, passes, earlier, mem, counts⟩ := late
  have front : (passed.map fun check => check.limit.zone).Nodup := by
    rw [map_append] at distinct
    exact (nodup_append.mp distinct).1
  obtain ⟨after, looped, walked⟩ :=
    @limit_loop_fails crc w now zones zones rest check passed [] .declined 0 0 none value
    (walked_nil free) passes (fun _ _ => rfl) front
  refine ⟨earlier.limit.zone, ?_⟩
  rw [ngxHttpLimitReqHandler, if_neg notSet, looped]
  rcases walked.zone earlier.limit.zone with ⟨-, uncounted⟩ | ⟨-, -, -, -, key, taken⟩
  · exact absurd counts (uncounted earlier mem rfl)
  · rw [taken.node]
    exact Option.some_ne_none key

end Handler

theorem handler_restores_iff (crc : Bytes → Nat) (w now : Nat) (limitReqSet readEvent : Bool)
    (checks : List Check) (zones : Zones) (free : ∀ z, (zones z).node = none)
    (distinct : (checks.map fun check => check.limit.zone).Nodup) :
    (∀ z, Restored (zones z) ((ngxHttpLimitReqHandler crc w now limitReqSet readEvent checks zones).1 z)) ↔
      limitReqSet = true ∨ ¬FailsLate crc w now zones checks := by
  constructor
  · intro restored
    by_contra leaks
    rw [not_or, not_not] at leaks
    obtain ⟨z, held⟩ := @handler_leaks crc w now limitReqSet readEvent checks zones free
      distinct leaks.1 leaks.2
    exact held (restored z).node
  · intro sound z
    exact handler_restores free distinct sound z

/-- A request with the limits of its location, and what it meets. -/
structure Request where
  now : Nat
  limitReqSet : Bool
  readEvent : Bool
  checks : List Check
  distinct : (checks.map fun check => check.limit.zone).Nodup

section Requests

variable {requests : List Request}

def serve (crc : Bytes → Nat) (w : Nat) (zones : Zones) (request : Request) : Zones :=
  (ngxHttpLimitReqHandler crc w request.now request.limitReqSet request.readEvent request.checks zones).1

theorem free_along {crc : Bytes → Nat} {w : Nat} {start : Zones} (free : ∀ z, (start z).node = none)
    (restores : ∀ earlier request later, requests = earlier ++ request :: later →
      (∀ z, (earlier.foldl (serve crc w) start z).node = none) → ∀ z,
        Restored (earlier.foldl (serve crc w) start z)
          (serve crc w (earlier.foldl (serve crc w) start) request z))
    (earlier later : List Request) (split : requests = earlier ++ later) (z : Nat) :
    (earlier.foldl (serve crc w) start z).node = none := by
  induction earlier using reverseRecOn generalizing later z with
  | nil => exact free z
  | append_singleton earlier request ih =>
    rw [append_assoc] at split
    rw [foldl_append]
    exact (restores earlier request later split (ih _ split) z).node

/-- Over requests that start from zones where no node is taken: each of them gives back what
it takes if and only if of none the key of a limit cannot be evaluated after the request was
counted for an earlier one. -/
theorem requests_restore_iff (crc : Bytes → Nat) (w : Nat) (requests : List Request) (start : Zones)
    (free : ∀ z, (start z).node = none) :
    (∀ earlier request later, requests = earlier ++ request :: later → ∀ z,
        Restored (earlier.foldl (serve crc w) start z)
          (serve crc w (earlier.foldl (serve crc w) start) request z)) ↔
      ∀ earlier request later, requests = earlier ++ request :: later → request.limitReqSet = true ∨
        ¬FailsLate crc w request.now (earlier.foldl (serve crc w) start) request.checks := by
  constructor
  · intro restored earlier request later split
    have stays := free_along free (fun earlier request later split _ => restored earlier request later split)
    exact (handler_restores_iff crc w _ _ _ _ _ (stays earlier _ split) request.distinct).mp
      (restored earlier request later split)
  · intro sound earlier request later split
    have restores : ∀ earlier request later, requests = earlier ++ request :: later →
        (∀ z, (earlier.foldl (serve crc w) start z).node = none) → ∀ z,
          Restored (earlier.foldl (serve crc w) start z)
            (serve crc w (earlier.foldl (serve crc w) start) request z) := by
      intro earlier request later split free
      exact (handler_restores_iff crc w _ _ _ _ _ free request.distinct).mpr
        (sound earlier request later split)
    exact restores earlier request later split (free_along free restores earlier _ split)

end Requests

def freshZones : Zones := fun _ => ⟨1000, [], none⟩

/-- A limit of a zone for a key of one letter, or for one that cannot be evaluated. -/
def zoneCheck (zone : Nat) (value : Option Bytes) : Check := ⟨⟨zone, 0, true⟩, value, true, true⟩

def twoLimits : Request := ⟨0, false, true, [zoneCheck 0 (some [97]), zoneCheck 1 (some [97])], by decide⟩

theorem requests_restore_two_limits : Restored (serve List.length 64 freshZones twoLimits 0)
    (serve List.length 64 (serve List.length 64 freshZones twoLimits) twoLimits 0) := by
  refine (requests_restore_iff List.length 64 [twoLimits, twoLimits] freshZones fun _ => rfl).mpr ?_
    [twoLimits] twoLimits [] rfl 0
  intro earlier request later split
  have mem : request ∈ [twoLimits, twoLimits] := by
    rw [split]
    exact mem_append_right _ mem_cons_self
  have isTwo : request = twoLimits := by simpa using mem
  right
  rintro ⟨passed, check, rest, isChecks, value, -⟩
  have evaluated : ∀ check ∈ twoLimits.checks, check.value ≠ none := by simp [twoLimits, zoneCheck]
  rw [← isTwo, isChecks] at evaluated
  exact evaluated check (mem_append_right _ mem_cons_self) value

/-- The key of the second limit cannot be evaluated: the node of the first one stays taken. -/
theorem node_stays_taken : ¬∀ z, Restored (freshZones z) ((ngxHttpLimitReqHandler List.length 64 0 false true
    [zoneCheck 0 (some [97]), zoneCheck 1 none] freshZones).1 z) := by
  intro restored
  exact absurd (restored 0).node (by decide)

end ServerCore.NginxHttpLimitReqCounts
