import ServerCore.TransitionSystem
import Mathlib.Data.Fintype.Card
import Mathlib.Tactic.Ring

/-!
# The nginx reader/writer lock

`ngx_rwlock_wlock`, `ngx_rwlock_rlock` and `ngx_rwlock_unlock` cut at their
atomic accesses: each load, store and compare-and-set of the lock word is one
step, and the processes interleave freely between them. The pauses and the
yield of the spin loops touch no shared state, so only the loop counter of the
spin is kept.
-/

namespace ServerCore.NginxRwlock

open TransitionSystem Function

variable {count ngxNcpu : Nat} {process : Fin count} {pc : Pc}
variable {lock old set : Word}

abbrev Word := BitVec 64

def ngxRwlockSpin : Nat := 2048

def ngxRwlockWlock : Word := -1

/-- The kind of hold a process has acquired and not yet released. The code does
not store it; it is what the caller of `ngx_rwlock_unlock` gives back. -/
inductive Hold
  | read
  | write
  deriving DecidableEq

/-- The attempt at the top of the outer loop, or one of the inner spin loop with
its counter `n`. -/
inductive Attempt
  | outer
  | spin (n : Nat)

/-- Where a failed attempt continues: `ngx_ncpu > 1` enters the spin loop, which
doubles `n` up to `NGX_RWLOCK_SPIN` and then yields to the outer loop. -/
def nextAttempt (ngxNcpu : Nat) : Attempt → Attempt
  | .outer => if ngxNcpu > 1 then .spin 1 else .outer
  | .spin n => if 2 * n < ngxRwlockSpin then .spin (2 * n) else .outer

inductive Pc
  | idle
  | wlockLoad (attempt : Attempt)
  | wlockCas (attempt : Attempt)
  | rlockLoad (attempt : Attempt)
  | rlockCas (attempt : Attempt) (readers : Word)
  | holding (hold : Hold)
  | unlockLoad (hold : Hold)
  | unlockStore (hold : Hold)
  | unlockCas (hold : Hold) (readers : Word)
  | unlockReload (hold : Hold)

/-- A hold lasts from the successful compare-and-set to the access that gives
the lock word back. -/
def Pc.hold : Pc → Option Hold
  | .holding hold | .unlockLoad hold | .unlockStore hold | .unlockCas hold _ |
    .unlockReload hold => some hold
  | _ => none

def Pc.unlocking : Pc → Bool
  | .unlockLoad _ | .unlockStore _ | .unlockCas _ _ | .unlockReload _ => true
  | _ => false

/-- `ngx_atomic_cmp_set`: the new word and whether the set took place. -/
def ngxAtomicCmpSet (lock old set : Word) : Word × Bool :=
  if lock = old then (set, true) else (lock, false)

theorem cmp_set_taken (same : lock = old) :
    ngxAtomicCmpSet lock old set = (set, true) := by
  simp [ngxAtomicCmpSet, same]

theorem cmp_set_refused (changed : lock ≠ old) :
    ngxAtomicCmpSet lock old set = (lock, false) := by
  simp [ngxAtomicCmpSet, changed]

/-- One access of one process. `request` is the lock an idle process asks for
next. -/
def access (ngxNcpu : Nat) (request : Hold) (lock : Word) : Pc → Word × Pc
  | .idle =>
    match request with
    | .read => (lock, .rlockLoad .outer)
    | .write => (lock, .wlockLoad .outer)
  | .wlockLoad attempt =>
    if lock = 0 then (lock, .wlockCas attempt)
    else (lock, .wlockLoad (nextAttempt ngxNcpu attempt))
  | .wlockCas attempt =>
    match ngxAtomicCmpSet lock 0 ngxRwlockWlock with
    | (word, true) => (word, .holding .write)
    | (word, false) => (word, .wlockLoad (nextAttempt ngxNcpu attempt))
  | .rlockLoad attempt =>
    if lock ≠ ngxRwlockWlock then (lock, .rlockCas attempt lock)
    else (lock, .rlockLoad (nextAttempt ngxNcpu attempt))
  | .rlockCas attempt readers =>
    match ngxAtomicCmpSet lock readers (readers + 1) with
    | (word, true) => (word, .holding .read)
    | (word, false) => (word, .rlockLoad (nextAttempt ngxNcpu attempt))
  | .holding hold => (lock, .unlockLoad hold)
  | .unlockLoad hold =>
    if lock = ngxRwlockWlock then (lock, .unlockStore hold)
    else (lock, .unlockCas hold lock)
  | .unlockStore _ => (0, .idle)
  | .unlockCas hold readers =>
    match ngxAtomicCmpSet lock readers (readers - 1) with
    | (word, true) => (word, .idle)
    | (word, false) => (word, .unlockReload hold)
  | .unlockReload hold => (lock, .unlockCas hold lock)

structure State (count : Nat) where
  lock : Word
  proc : Fin count → Pc

variable {state : State count}

/-- The scheduler picks a process and, for an idle one, the lock it asks for. -/
structure Choice (count : Nat) where
  process : Fin count
  request : Hold

variable {choice : Choice count}

def step {count : Nat} (ngxNcpu : Nat) (state : State count) (choice : Choice count) :
    State count :=
  let moved := access ngxNcpu choice.request state.lock (state.proc choice.process)
  { lock := moved.1, proc := update state.proc choice.process moved.2 }

def lockSystem (ngxNcpu count : Nat) : System (State count) (Choice count) where
  initial state := state.lock = 0 ∧ ∀ process, state.proc process = .idle
  next before choice after := after = step ngxNcpu before choice

def holders {count : Nat} (state : State count) (hold : Hold) : Finset (Fin count) :=
  Finset.univ.filter fun process => (state.proc process).hold = some hold

theorem mem_holders {hold : Hold} :
    process ∈ holders state hold ↔ (state.proc process).hold = some hold := by
  simp [holders]

theorem holders_card_le (state : State count) (hold : Hold) : (holders state hold).card ≤ count := by
  simpa using Finset.card_le_univ (holders state hold)

theorem holders_step (ngxNcpu : Nat) (state : State count)
    (choice : Choice count) (hold : Hold) : holders (step ngxNcpu state choice) hold =
      if (access ngxNcpu choice.request state.lock (state.proc choice.process)).2.hold = some hold
      then insert choice.process (holders state hold)
      else (holders state hold).erase choice.process := by
  ext process
  by_cases own : process = choice.process
  · subst own
    simp only [mem_holders, step, update_self]
    split_ifs <;> simp_all
  · simp only [mem_holders, step, update_of_ne own]
    split_ifs <;> simp [own, mem_holders]

/-- What the code of a process can rely on locally: a reader's stale count is
never the writer mark, and the branch an unlock has taken fits the hold. -/
def Pc.Coherent : Pc → Prop
  | .rlockCas _ readers => readers ≠ ngxRwlockWlock
  | .unlockStore hold => hold = .write
  | .unlockCas hold _ => hold = .read
  | .unlockReload hold => hold = .read
  | _ => True

/-- The word says who holds the lock: no writer and a count of readers, or one
writer alone and the mark. -/
def WordMatches {count : Nat} (state : State count) : Prop :=
  (holders state .write = ∅ ∧ state.lock.toNat = (holders state .read).card) ∨
    (∃ writer, holders state .write = {writer} ∧ holders state .read = ∅ ∧
      state.lock = ngxRwlockWlock)

structure Inv {count : Nat} (state : State count) : Prop where
  word : WordMatches state
  local_ : ∀ process, (state.proc process).Coherent

theorem wlock_to_nat : ngxRwlockWlock.toNat = 2 ^ 64 - 1 := by decide

theorem read_holder_word (small : count < 2 ^ 64 - 1)
    (word : WordMatches state) (reads : (state.proc process).hold = some .read) :
    holders state .write = ∅ ∧ state.lock.toNat = (holders state .read).card ∧
      0 < state.lock.toNat ∧ state.lock ≠ ngxRwlockWlock := by
  have mem : process ∈ holders state .read := mem_holders.mpr reads
  have pos := Finset.card_pos.mpr ⟨process, mem⟩
  have bound := holders_card_le state .read
  rcases word with ⟨none, counted⟩ | ⟨_, _, empty, _⟩
  · refine ⟨none, counted, by omega, ?_⟩
    intro marked
    rw [marked, wlock_to_nat] at counted
    omega
  · simp [empty] at mem

theorem write_holder_word (word : WordMatches state)
    (writes : (state.proc process).hold = some .write) :
    holders state .write = {process} ∧ holders state .read = ∅ ∧ state.lock = ngxRwlockWlock := by
  have mem : process ∈ holders state .write := mem_holders.mpr writes
  rcases word with ⟨none, _⟩ | ⟨writer, alone, rest⟩
  · simp [none] at mem
  · have same : process = writer := by simpa [alone] using mem
    exact ⟨by rw [same]; exact alone, rest⟩

/-- The five things an access can do to the word and to the hold of its process. -/
inductive Effect (lock : Word) (pc : Pc) : Word × Pc → Prop
  | silent {after : Pc} (kept : after.hold = pc.hold) : Effect lock pc (lock, after)
  | acquireWrite (free : pc.hold = none) (zero : lock = 0) :
      Effect lock pc (ngxRwlockWlock, .holding .write)
  | acquireRead (free : pc.hold = none) (shared : lock ≠ ngxRwlockWlock) :
      Effect lock pc (lock + 1, .holding .read)
  | releaseWrite (held : pc.hold = some .write) (coming : pc.unlocking = true) :
      Effect lock pc (0, .idle)
  | releaseRead (held : pc.hold = some .read) (coming : pc.unlocking = true) :
      Effect lock pc (lock - 1, .idle)

theorem access_effect (ngxNcpu : Nat) (request : Hold) (lock : Word)
    (coherent : pc.Coherent) : Effect lock pc (access ngxNcpu request lock pc) := by
  cases pc with
  | idle => cases request <;> exact .silent rfl
  | wlockLoad attempt | rlockLoad attempt | unlockLoad hold =>
    simp only [access]
    split_ifs <;> exact .silent rfl
  | wlockCas attempt =>
    by_cases zero : lock = 0
    · rw [access, cmp_set_taken zero]
      exact .acquireWrite rfl zero
    · rw [access, cmp_set_refused zero]
      exact .silent rfl
  | rlockCas attempt readers =>
    by_cases current : lock = readers
    · subst current
      rw [access, cmp_set_taken rfl]
      exact .acquireRead rfl coherent
    · rw [access, cmp_set_refused current]
      exact .silent rfl
  | holding hold => exact .silent rfl
  | unlockStore hold => exact .releaseWrite (congrArg some coherent) rfl
  | unlockCas hold readers =>
    by_cases current : lock = readers
    · subst current
      rw [access, cmp_set_taken rfl]
      exact .releaseRead (congrArg some coherent) rfl
    · rw [access, cmp_set_refused current]
      exact .silent rfl
  | unlockReload hold => exact .silent rfl

theorem silent_holders {before after : State count} (updated : ∀ hold, holders after hold =
      if pc.hold = some hold then insert process (holders before hold)
      else (holders before hold).erase process) (kept : pc.hold = (before.proc process).hold) (hold : Hold) :
    holders after hold = holders before hold := by
  rw [updated hold]
  split_ifs with held
  · exact Finset.insert_eq_of_mem (mem_holders.mpr (kept ▸ held))
  · exact Finset.erase_eq_of_notMem fun mem => held (kept ▸ mem_holders.mp mem)

theorem word_matches_step (small : count < 2 ^ 64 - 1)
    (inv : Inv state) : WordMatches (step ngxNcpu state choice) := by
  have effect := access_effect ngxNcpu choice.request state.lock
    (inv.local_ choice.process)
  have after := holders_step ngxNcpu state choice
  have lockAfter : (step ngxNcpu state choice).lock =
      (access ngxNcpu choice.request state.lock (state.proc choice.process)).1 := rfl
  generalize access ngxNcpu choice.request state.lock (state.proc choice.process) = moved
    at effect after lockAfter
  cases effect with
  | silent kept =>
    have same := silent_holders after kept
    simpa only [WordMatches, same, lockAfter] using inv.word
  | acquireWrite free zero =>
    have noReaders : holders state .read = ∅ ∧ holders state .write = ∅ := by
      rcases inv.word with ⟨none, counted⟩ | ⟨_, _, _, marked⟩
      · rw [zero] at counted
        exact ⟨Finset.card_eq_zero.mp (by simpa using counted.symm), none⟩
      · rw [zero] at marked
        exact absurd marked (by decide)
    refine .inr ⟨choice.process, ?_, ?_, lockAfter⟩
    · simp [after, Pc.hold, noReaders.2]
    · simp [after, Pc.hold, noReaders.1]
  | acquireRead free shared =>
    rcases inv.word with ⟨none, counted⟩ | ⟨_, _, _, marked⟩
    · have outside : choice.process ∉ holders state .read := by
        simp [mem_holders, free]
      have bound := holders_card_le state .read
      refine .inl ⟨by simp [after, Pc.hold, none], ?_⟩
      have grown : (holders (step ngxNcpu state choice) .read).card =
          (holders state .read).card + 1 := by
        simp [after, Pc.hold, Finset.card_insert_of_notMem outside]
      rw [grown, lockAfter, BitVec.toNat_add, counted]
      exact Nat.mod_eq_of_lt (by simp; omega)
    · exact absurd marked shared
  | releaseWrite held coming =>
    obtain ⟨alone, noReaders, _⟩ := write_holder_word inv.word held
    refine .inl ⟨by simp [after, Pc.hold, alone], ?_⟩
    simp [after, Pc.hold, noReaders, lockAfter]
  | releaseRead held coming =>
    obtain ⟨noWriter, counted, pos, _⟩ := read_holder_word small inv.word held
    refine .inl ⟨by simp [after, Pc.hold, noWriter], ?_⟩
    have shrunk : (holders (step ngxNcpu state choice) .read).card =
        (holders state .read).card - 1 := by
      simp [after, Pc.hold, Finset.card_erase_of_mem (mem_holders.mpr held)]
    rw [shrunk, lockAfter, ← counted, BitVec.toNat_sub_of_le]
    · rfl
    · rw [BitVec.le_def]
      exact pos

theorem access_coherent {request : Hold} (coherent : pc.Coherent)
    (decides : ∀ hold, pc = .unlockLoad hold → (lock = ngxRwlockWlock ↔ hold = .write)) :
    (access ngxNcpu request lock pc).2.Coherent := by
  cases pc with
  | unlockLoad hold =>
    have decided := decides hold rfl
    simp only [access]
    split_ifs with marked
    · exact decided.mp marked
    · cases hold with
      | read => rfl
      | write => exact absurd (decided.mpr rfl) marked
  | idle => cases request <;> trivial
  | wlockCas attempt =>
    by_cases zero : lock = 0
    · rw [access, cmp_set_taken zero]
      trivial
    · rw [access, cmp_set_refused zero]
      trivial
  | rlockCas attempt readers =>
    by_cases current : lock = readers
    · rw [access, cmp_set_taken current]
      trivial
    · rw [access, cmp_set_refused current]
      trivial
  | unlockCas hold readers =>
    by_cases current : lock = readers
    · rw [access, cmp_set_taken current]
      trivial
    · rw [access, cmp_set_refused current]
      exact coherent
  | wlockLoad attempt =>
    simp only [access]
    split_ifs <;> trivial
  | rlockLoad attempt =>
    simp only [access]
    split_ifs with shared
    · exact shared
    · trivial
  | holding hold => trivial
  | unlockStore hold => trivial
  | unlockReload hold => exact coherent

theorem inv_step (small : count < 2 ^ 64 - 1) (ngxNcpu : Nat)
    (state : State count) (choice : Choice count) (inv : Inv state) : Inv (step ngxNcpu state choice) := by
  refine ⟨word_matches_step small inv, ?_⟩
  intro process
  by_cases own : process = choice.process
  · subst own
    simp only [step, update_self]
    apply access_coherent (inv.local_ choice.process)
    intro hold loading
    have held : (state.proc choice.process).hold = some hold := by rw [loading]; rfl
    cases hold with
    | read => simpa using (read_holder_word small inv.word held).2.2.2
    | write => simpa using (write_holder_word inv.word held).2.2
  · simpa only [step, update_of_ne own] using inv.local_ process

theorem inv_initial (ngxNcpu : Nat) (state : State count)
    (first : (lockSystem ngxNcpu count).initial state) : Inv state := by
  obtain ⟨zero, idle⟩ := first
  have empty : ∀ hold, holders state hold = ∅ := by
    intro hold
    simp [holders, idle, Pc.hold]
  refine ⟨.inl ⟨empty .write, by simp [empty, zero]⟩, ?_⟩
  intro process
  rw [idle process]
  trivial

theorem reachable_inv {count ngxNcpu : Nat} (small : count < 2 ^ 64 - 1) {state : State count}
    (reached : Reachable (lockSystem ngxNcpu count) state) : Inv state := by
  apply reachable_invariant (inv_initial ngxNcpu) ?_ reached
  intro before choice after inv moved
  rw [show after = step ngxNcpu before choice from moved]
  exact inv_step small ngxNcpu before choice inv

/-- One access of an unlock either changes nothing that is held, or gives back
the hold of its own process and no other: the word becomes free when that hold
was the writer's, and counts one reader less otherwise. -/
def DropsOnlyOwnHold {count : Nat} (before after : State count) (process : Fin count) : Prop :=
  (after.lock = before.lock ∧ ∀ hold, holders after hold = holders before hold) ∨
    (∃ hold, (before.proc process).hold = some hold ∧
      holders after hold = (holders before hold).erase process ∧
      (∀ other, other ≠ hold → holders after other = holders before other) ∧
      after.lock = match hold with
        | .write => 0
        | .read => before.lock - 1)

theorem unlock_drops_only_own_hold (coherent : (state.proc choice.process).Coherent)
    (unlocking : (state.proc choice.process).unlocking = true) :
    DropsOnlyOwnHold state (step ngxNcpu state choice) choice.process := by
  have effect := access_effect ngxNcpu choice.request state.lock
    coherent
  have after := holders_step ngxNcpu state choice
  have lockAfter : (step ngxNcpu state choice).lock =
      (access ngxNcpu choice.request state.lock (state.proc choice.process)).1 := rfl
  have keepsHold : (state.proc choice.process).hold ≠ none := by
    cases pc : state.proc choice.process <;> simp_all [Pc.hold, Pc.unlocking]
  generalize access ngxNcpu choice.request state.lock (state.proc choice.process) = moved
    at effect after lockAfter
  have release : ∀ hold, (state.proc choice.process).hold = some hold → moved.2 = .idle →
      holders (step ngxNcpu state choice) hold = (holders state hold).erase choice.process ∧
      ∀ other, other ≠ hold → holders (step ngxNcpu state choice) other = holders state other := by
    intro hold held idle
    refine ⟨by simp [after, idle, Pc.hold], ?_⟩
    intro other different
    have outside : choice.process ∉ holders state other := by
      simpa [mem_holders, held] using different.symm
    simp [after, idle, Pc.hold, Finset.erase_eq_of_notMem outside]
  cases effect with
  | silent kept => exact .inl ⟨lockAfter, silent_holders after kept⟩
  | acquireWrite free _ => exact absurd free keepsHold
  | acquireRead free _ => exact absurd free keepsHold
  | releaseWrite held _ =>
    exact .inr ⟨.write, held, (release _ held rfl).1, (release _ held rfl).2, lockAfter⟩
  | releaseRead held _ =>
    exact .inr ⟨.read, held, (release _ held rfl).1, (release _ held rfl).2, lockAfter⟩

/-- Safety of the lock over every interleaving of its atomic accesses. -/
theorem rwlock_safe {count ngxNcpu : Nat} (small : count < 2 ^ 64 - 1) {state : State count}
    (reached : Reachable (lockSystem ngxNcpu count) state) : (holders state .write).card ≤ 1 ∧
      ((holders state .write).Nonempty → holders state .read = ∅) ∧
      (holders state .write = ∅ → holders state .read = ∅ → state.lock = 0) ∧
      ((holders state .write).Nonempty → state.lock.toNat = 2 ^ 64 - 1) ∧
      (holders state .write = ∅ → state.lock.toNat = (holders state .read).card) ∧
      ∀ choice : Choice count, (state.proc choice.process).unlocking = true →
        DropsOnlyOwnHold state (step ngxNcpu state choice) choice.process := by
  have inv := reachable_inv small reached
  have drops : ∀ choice : Choice count, (state.proc choice.process).unlocking = true →
      DropsOnlyOwnHold state (step ngxNcpu state choice) choice.process :=
    fun choice unlocking =>
      unlock_drops_only_own_hold (inv.local_ choice.process) unlocking
  rcases inv.word with ⟨noWriter, counted⟩ | ⟨writer, alone, noReader, marked⟩
  · refine ⟨by simp [noWriter], by simp [noWriter], ?_, by simp [noWriter],
      fun _ => counted, drops⟩
    intro _ noReader
    apply BitVec.eq_of_toNat_eq
    simpa [noReader] using counted
  · refine ⟨by simp [alone], fun _ => noReader, by simp [alone], ?_, by simp [alone], drops⟩
    intro _
    rw [marked, wlock_to_nat]

/-- The lock that a process has asked for and does not hold yet. -/
def Pc.wants : Pc → Option Hold
  | .wlockLoad _ | .wlockCas _ => some .write
  | .rlockLoad _ | .rlockCas _ _ => some .read
  | _ => none

/-- A process that goes on alone gets the lock that it wants where that is free for it, and
gives back the one that it is unlocking, by three accesses at most. -/
theorem rwlock_never_stuck {count ngxNcpu : Nat} (small : count < 2 ^ 64 - 1) {state : State count}
    (reached : Reachable (lockSystem ngxNcpu count) state) (choice : Choice count) :
    (∀ hold, (state.proc choice.process).wants = some hold → holders state .write = ∅ →
      (hold = .write → holders state .read = ∅) →
      ∃ turns ≤ 3, ((step ngxNcpu · choice)^[turns] state).proc choice.process = .holding hold) ∧
    ((state.proc choice.process).unlocking = true →
      ∃ turns ≤ 3, ((step ngxNcpu · choice)^[turns] state).proc choice.process = .idle) := by
  constructor
  · intro hold wants noWriter noReader
    obtain ⟨-, -, free, -, counted, -⟩ := rwlock_safe small reached
    have shared : state.lock ≠ ngxRwlockWlock := by
      intro marked
      have bound := holders_card_le state .read
      rw [← counted noWriter, marked, wlock_to_nat] at bound
      omega
    cases pc : state.proc choice.process <;> rw [pc] at wants <;> cases wants
    · exact ⟨2, by decide, by simp [step, access, pc, free noWriter (noReader rfl), ngxAtomicCmpSet]⟩
    · exact ⟨1, by decide, by simp [step, access, pc, free noWriter (noReader rfl), ngxAtomicCmpSet]⟩
    · exact ⟨2, by decide, by simp [step, access, pc, shared, ngxAtomicCmpSet]⟩
    · rename_i readers
      by_cases current : state.lock = readers
      · exact ⟨1, by decide, by simp [step, access, pc, current, ngxAtomicCmpSet]⟩
      · exact ⟨3, by decide, by simp [step, access, pc, current, shared, ngxAtomicCmpSet]⟩
  · intro unlocking
    cases pc : state.proc choice.process <;> rw [pc] at unlocking <;> cases unlocking
    · by_cases marked : state.lock = ngxRwlockWlock <;>
      exact ⟨2, by decide, by simp [step, access, pc, marked, ngxAtomicCmpSet]⟩
    · exact ⟨1, by decide, by simp [step, access, pc]⟩
    · rename_i readers
      by_cases current : state.lock = readers
      · exact ⟨1, by decide, by simp [step, access, pc, current, ngxAtomicCmpSet]⟩
      · exact ⟨3, by decide, by simp [step, access, pc, current, ngxAtomicCmpSet]⟩
    · exact ⟨2, by decide, by simp [step, access, pc, ngxAtomicCmpSet]⟩

def freshLock (count : Nat) : State count := { lock := 0, proc := fun _ => .idle }

/-- Two processes of two that have both acquired for reading. -/
def twoReaders : State 2 :=
  ((List.finRange 2).flatMap (List.replicate 3)).foldl
    (fun state process => step 4 state ⟨process, .read⟩) (freshLock 2)

theorem two_readers_reachable : Reachable (lockSystem 4 2) twoReaders := by
  have fresh : Reachable (lockSystem 4 2) (freshLock 2) := reachable_initial ⟨rfl, fun _ => rfl⟩
  have moves : ∀ state choice, (lockSystem 4 2).next state choice (step 4 state choice) :=
    fun _ _ => rfl
  exact reachable_foldl moves [⟨0, .read⟩, ⟨0, .read⟩, ⟨0, .read⟩, ⟨1, .read⟩, ⟨1, .read⟩, ⟨1, .read⟩] fresh

theorem rwlock_safe_two_readers : twoReaders.lock = 2 ∧ (holders twoReaders .read).card = 2 ∧
      (holders twoReaders .write).card ≤ 1 :=
  ⟨by decide, by decide, (rwlock_safe (by decide) two_readers_reachable).1⟩

theorem rwlock_never_stuck_one_writer : ∃ turns ≤ 3,
    ((step 4 · ⟨0, .write⟩)^[turns] (step 4 (freshLock 2) ⟨0, .write⟩)).proc 0 = .holding .write :=
  (rwlock_never_stuck (by decide) (reachable_next (reachable_initial ⟨rfl, fun _ => rfl⟩) rfl) ⟨0, .write⟩).1
    .write rfl (by decide) (by decide)

end ServerCore.NginxRwlock
