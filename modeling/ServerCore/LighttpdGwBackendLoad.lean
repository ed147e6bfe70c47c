import ServerCore.HolderCount
import ServerCore.LighttpdGwBackend

/-!
# What the load counters count

The books of the module: the load of a process is the number of contexts whose
process it is plus what has been lost of it, the load of a host is the number of
its contexts, and the number of active processes that of the running ones. Every
function keeps them, with nothing more lost, but `gw_write_request`, which may
forget a process.
-/

namespace ServerCore.LighttpdGwBackendLoad

open HolderCount LighttpdGwBackend List Function

variable {proc : GwProc}

variable {proc : Nat}

variable {host : Nat}

variable {outcome : SpawnOutcome} {oracle : Oracle}
variable {change : GwHost → GwProc → GwHost × GwProc}

def procOf (slot : Option GwHandlerCtx) : Option Nat := slot.bind GwHandlerCtx.proc

def hostOf (slot : Option GwHandlerCtx) : Option Nat := slot.bind GwHandlerCtx.host

def procsOf (host : GwHost) : List Nat := host.first ++ host.unusedProcs

def Running (srv : Server) (proc : Nat) : Prop := (srv.procs proc).state = .running

instance (srv : Server) : DecidablePred (Running srv) := fun proc =>
  inferInstanceAs (Decidable ((srv.procs proc).state = .running))

section Tracking

variable {host : GwHost} {proc : GwProc} {pair : GwHost × GwProc}

/-- A function of a host and a process that changes the number of active processes as it
changes the state, and nothing else that is counted. -/
structure Tracked (host : GwHost) (proc : GwProc) (pair : GwHost × GwProc) : Prop where
  active : pair.1.activeProcs =
    host.activeProcs - one (proc.state = .running) + one (pair.2.state = .running)
  hostLoad : pair.1.load = host.load
  load : pair.2.load = proc.load
  first : pair.1.first = host.first
  unused : pair.1.unusedProcs = host.unusedProcs

theorem Tracked.refl (host : GwHost) (proc : GwProc) : Tracked host proc (host, proc) :=
  ⟨by simp, rfl, rfl, rfl, rfl⟩

variable {proc' : GwProc}

theorem Tracked.trans {host' : GwHost} (before : Tracked host proc (host', proc'))
    (after : Tracked host' proc' pair) : Tracked host proc pair := by
  constructor
  · rw [after.active, before.active]
    simp
  · rw [after.hostLoad, before.hostLoad]
  · rw [after.load, before.load]
  · rw [after.first, before.first]
  · rw [after.unused, before.unused]

theorem Tracked.of_fields (tracked : Tracked host proc' pair)
    (state : proc'.state = proc.state) (load : proc'.load = proc.load) : Tracked host proc pair := by
  constructor
  · rw [tracked.active, state]
  · exact tracked.hostLoad
  · rw [tracked.load, load]
  · exact tracked.first
  · exact tracked.unused

theorem Tracked.to_fields (tracked : Tracked host proc pair) (state : proc'.state = pair.2.state)
    (load : proc'.load = pair.2.load) : Tracked host proc (pair.1, proc') := by
  constructor
  · rw [tracked.active]
    simp only [state]
  · exact tracked.hostLoad
  · rw [← tracked.load]
    exact load
  · exact tracked.first
  · exact tracked.unused

theorem set_state_state (host : GwHost) (proc : GwProc) (state : ProcState) :
    (gwProcSetState host proc state).2.state = state := by
  unfold gwProcSetState
  split_ifs with same
  · exact same
  all_goals rfl

theorem set_state_tracked (host : GwHost) (proc : GwProc) (state : ProcState) :
    Tracked host proc (gwProcSetState host proc state) := by
  by_cases same : proc.state = state
  · rw [gwProcSetState, if_pos same]
    exact Tracked.refl host proc
  · rw [gwProcSetState, if_neg same]
    by_cases wasRunning : proc.state = .running
    · have stops : state ≠ .running := fun isRunning => same (wasRunning.trans isRunning.symm)
      rw [if_pos wasRunning]
      exact ⟨by simp [wasRunning, stops], rfl, rfl, rfl, rfl⟩
    · rw [if_neg wasRunning]
      by_cases starts : state = .running
      · rw [if_pos starts]
        exact ⟨by simp [wasRunning, starts], rfl, rfl, rfl, rfl⟩
      · rw [if_neg starts]
        exact ⟨by simp [wasRunning, starts], rfl, rfl, rfl, rfl⟩

variable (curTs : Int)

theorem connect_error_tracked (pid : Int) (host : GwHost) (proc : GwProc) :
    Tracked host proc (gwProcConnectError curTs pid host proc) := by
  unfold gwProcConnectError
  split_ifs
  · exact (set_state_tracked _ _ _).of_fields rfl rfl
  · exact (set_state_tracked _ _ _).of_fields rfl rfl
  · exact Tracked.refl host proc

theorem connect_success_tracked (host : GwHost) (proc : GwProc) :
    Tracked host proc (gwProcConnectSuccess curTs host proc) :=
  (Tracked.refl host proc).to_fields rfl rfl

theorem check_enable_tracked {host : GwHost} :
    Tracked host proc (gwProcCheckEnable curTs host proc) := by
  unfold gwProcCheckEnable
  split_ifs
  · exact Tracked.refl host proc
  · exact Tracked.refl host proc
  · exact set_state_tracked host proc _

theorem waitpid_cases {waited : Waited} {host : GwHost} :
    gwProcWaitpid curTs waited host proc = (false, host, proc) ∨
      ∃ before : GwProc, before.state = proc.state ∧ before.load = proc.load ∧
        gwProcWaitpid curTs waited host proc = (true, gwProcSetState host before .died) := by
  unfold gwProcWaitpid
  by_cases running : proc.isLocal = false ∨ proc.pid ≤ 0 ∨ waited = .stillRunning
  · apply Or.inl
    rcases running with other | noPid | still
    · rw [if_pos (by simp [other])]
    · rw [if_pos noPid, ite_self]
    · rw [if_pos still, ite_self, ite_self]
  · rw [not_or, not_or] at running
    rcases running with ⟨isLocal, isPid, isGone⟩
    rw [if_neg (by simpa using isLocal), if_neg isPid, if_neg isGone]
    apply Or.inr
    exact ⟨{ proc with
      pid := 0
      disabledUntil := if proc.state ≠ .killed then curTs else proc.disabledUntil }, rfl, rfl, rfl⟩

theorem waitpid_tracked (waited : Waited) (host : GwHost) (proc : GwProc) :
    Tracked host proc (gwProcWaitpid curTs waited host proc).2 := by
  rcases waitpid_cases curTs with running | ⟨before, state, load, gone⟩
  · rw [running]
    exact Tracked.refl host proc
  · rw [gone]
    exact (set_state_tracked host before .died).of_fields state load

theorem waitpid_stopped (waited : Waited) (host : GwHost) {proc : GwProc} (stopped : proc.state ≠ .running) :
    (gwProcWaitpid curTs waited host proc).2.2.state ≠ .running := by
  rcases waitpid_cases curTs with running | ⟨before, -, -, gone⟩
  · rw [running]
    exact stopped
  · rw [gone, set_state_state]
    exact nofun

theorem spawn_connection_tracked (spawned : Spawned) (host : GwHost) (proc : GwProc) :
    Tracked host proc (gwSpawnConnection curTs spawned host proc).2 := by
  cases spawned with
  | notListening => exact Tracked.refl host proc
  | forkFailed => exact (Tracked.refl host proc).to_fields rfl rfl
  | forked pid waited =>
    have child := waitpid_tracked curTs waited host
      { proc with pid := pid, lastUsed := curTs, isLocal := true }
    rw [gwSpawnConnection]
    generalize gwProcWaitpid curTs waited host
      { proc with pid := pid, lastUsed := curTs, isLocal := true } = result at child
    rcases result with ⟨ended, after⟩
    have counted : Tracked host proc after := child.of_fields rfl rfl
    cases ended with
    | true => exact counted
    | false => exact counted.trans (set_state_tracked after.1 after.2 _)
  | inUse => exact (set_state_tracked _ _ _).of_fields rfl rfl

theorem spawn_failed_stopped {spawned : Spawned} {host : GwHost} {proc : GwProc}
    (stopped : proc.state ≠ .running) (failed : (gwSpawnConnection curTs spawned host proc).1 = true) :
    (gwSpawnConnection curTs spawned host proc).2.2.state ≠ .running := by
  cases spawned with
  | notListening => exact stopped
  | forkFailed => exact stopped
  | forked pid waited =>
    have child := @waitpid_stopped curTs waited host
      { proc with pid := pid, lastUsed := curTs, isLocal := true } stopped
    rw [gwSpawnConnection] at failed ⊢
    generalize gwProcWaitpid curTs waited host
      { proc with pid := pid, lastUsed := curTs, isLocal := true } = result at child failed ⊢
    rcases result with ⟨ended, after⟩
    cases ended with
    | true => exact child
    | false => cases failed
  | inUse => cases failed

theorem restart_dead_tracked {spawned : Spawned} {host : GwHost} :
    Tracked host proc (restartDead curTs spawned host proc) := by
  unfold restartDead
  split_ifs
  · exact Tracked.refl host proc
  · exact Tracked.refl host proc
  · exact spawn_connection_tracked curTs spawned host proc
  · exact check_enable_tracked curTs

theorem restart_proc_tracked (waited : Waited) (spawned : Spawned) (host : GwHost) (proc : GwProc) :
    Tracked host proc (restartProc curTs waited spawned host proc) := by
  have child := waitpid_tracked curTs waited host proc
  unfold restartProc
  cases proc.state with
  | running => exact Tracked.refl host proc
  | overloaded => exact check_enable_tracked curTs
  | killed => exact Tracked.refl host proc
  | died => exact restart_dead_tracked curTs
  | diedWaitForPid =>
    generalize gwProcWaitpid curTs waited host proc = result at child
    rcases result with ⟨ended, after⟩
    have enabled : Tracked host proc
        (if ended = true then after else gwProcCheckEnable curTs after.1 after.2) := by
      split_ifs
      · exact child
      · exact child.trans (check_enable_tracked curTs)
    dsimp only
    generalize (if ended = true then after else gwProcCheckEnable curTs after.1 after.2) = pair
      at enabled
    split_ifs
    · exact enabled
    · exact enabled.trans (restart_dead_tracked curTs)

theorem child_ended_tracked (spawned : Spawned) (host : GwHost) (proc : GwProc) :
    Tracked host proc (childEnded curTs spawned host proc) := by
  have died := set_state_tracked host proc .died
  unfold childEnded
  generalize gwProcSetState host proc .died = pair at died
  by_cases early : pair.2.disabledUntil < curTs
  · rw [if_pos early]
    exact died.trans ((spawn_connection_tracked curTs spawned pair.1 _).of_fields rfl rfl)
  · rw [if_neg early]
    exact died.to_fields rfl rfl

theorem unused_ended_tracked {host : GwHost} :
    Tracked host proc (unusedEnded curTs host proc) := by
  have died : Tracked host proc (gwProcSetState host
      { proc with disabledUntil := if proc.state ≠ .killed then curTs else proc.disabledUntil }
      .died) := (set_state_tracked _ _ _).of_fields rfl rfl
  exact died.to_fields rfl rfl

theorem unused_ended_stopped {host : GwHost} :
    (unusedEnded curTs host proc).2.state ≠ .running := by
  unfold unusedEnded
  rw [set_state_state]
  exact nofun

theorem reap_tracked (waited : Waited) (spawned : Spawned) (host : GwHost) (proc : GwProc) :
    Tracked host proc (if (gwProcWaitpid curTs waited host proc).1 then
      (gwSpawnConnection curTs spawned (gwProcWaitpid curTs waited host proc).2.1
        (gwProcWaitpid curTs waited host proc).2.2).2
      else (gwProcWaitpid curTs waited host proc).2) := by
  have child := waitpid_tracked curTs waited host proc
  split_ifs
  · exact child.trans (spawn_connection_tracked curTs spawned _ _)
  · exact child

end Tracking

/-- What the counters count. `lost` is what a process has been charged with by contexts that
have forgotten it. -/
structure Books (srv : Server) (lost : Nat → Nat) : Prop where
  loads : ∀ proc, (srv.procs proc).load = holders procOf srv.conns proc + lost proc
  hostLoads : ∀ host, (srv.hosts host).load = holders hostOf srv.conns host
  active : ∀ host, (srv.hosts host).activeProcs = marked (Running srv) (procsOf (srv.hosts host))
  once : ∀ host, (procsOf (srv.hosts host)).Nodup
  apart : ∀ host host' proc, proc ∈ procsOf (srv.hosts host) → proc ∈ procsOf (srv.hosts host') →
    host = host'
  known : ∀ host proc, proc ∈ procsOf (srv.hosts host) → proc < srv.nextProc
  stopped : ∀ host, ∀ proc ∈ (srv.hosts host).unusedProcs, ¬ Running srv proc
  busy : ∀ proc, (srv.procs proc).load ≠ 0 → ∃ host, proc ∈ (srv.hosts host).first
  bound : ∀ slot ∈ srv.conns, ∀ proc, procOf slot = some proc →
    ∃ host, hostOf slot = some host ∧ proc ∈ (srv.hosts host).first

section Keeping

variable {srv : Server} {lost : Nat → Nat}

theorem mem_first {host : GwHost} (mem : proc ∈ host.first) : proc ∈ procsOf host :=
  mem_append_left _ mem

theorem mem_unused {host : GwHost} (mem : proc ∈ host.unusedProcs) : proc ∈ procsOf host :=
  mem_append_right _ mem

theorem load_pos_of_held (books : Books srv lost) {slot : Option GwHandlerCtx}
    (mem : slot ∈ srv.conns) (isProc : procOf slot = some proc) : (srv.procs proc).load ≠ 0 := by
  intro zero
  have counted := books.loads proc
  have nonneg := holders_nonneg procOf srv.conns proc
  have none_ : holders procOf srv.conns proc = 0 := by omega
  exact not_held_of_zero none_ slot mem isProc

/-- One host and one process that no other host has are changed: what is to be seen of the
lists of the host for the books to stay. -/
structure Reformed (srv after : Server) (host proc : Nat) : Prop where
  conns : after.conns = srv.conns
  loads : ∀ other, (after.procs other).load = (srv.procs other).load
  hostLoads : ∀ other, (after.hosts other).load = (srv.hosts other).load
  otherHosts : ∀ other, other ≠ host → after.hosts other = srv.hosts other
  otherProcs : ∀ other, other ≠ proc → (after.procs other).state = (srv.procs other).state
  notElsewhere : ∀ other, other ≠ host → proc ∉ procsOf (srv.hosts other)
  next : srv.nextProc ≤ after.nextProc
  known : proc < after.nextProc
  once : (procsOf (after.hosts host)).Nodup
  members : ∀ key ∈ procsOf (after.hosts host), key = proc ∨ key ∈ procsOf (srv.hosts host)
  active : (after.hosts host).activeProcs = marked (Running after) (procsOf (after.hosts host))
  stopped : ∀ key ∈ (after.hosts host).unusedProcs, ¬ Running after key
  kept : ∀ key ∈ (srv.hosts host).first, key ≠ proc → key ∈ (after.hosts host).first
  busy : (srv.procs proc).load ≠ 0 → proc ∈ (after.hosts host).first

theorem reformed_books {after : Server} {host proc : Nat} (books : Books srv lost)
    (reformed : Reformed srv after host proc) : Books after lost := by
  have runs : ∀ other, other ≠ proc → (Running after other ↔ Running srv other) := by
    intro other isOther
    unfold Running
    rw [reformed.otherProcs other isOther]
  have stays : ∀ owner key, key ∈ (srv.hosts owner).first → (srv.procs key).load ≠ 0 →
      key ∈ (after.hosts owner).first := by
    intro owner key mem isBusy
    by_cases isHost : owner = host
    · rw [isHost] at mem ⊢
      by_cases isProc : key = proc
      · rw [isProc] at isBusy ⊢
        exact reformed.busy isBusy
      · exact reformed.kept key mem isProc
    · rw [reformed.otherHosts owner isHost]
      exact mem
  have apart : ∀ other key, other ≠ host → key ∈ procsOf (after.hosts host) →
      key ∉ procsOf (srv.hosts other) := by
    intro other key isOther mem here
    rcases reformed.members key mem with rfl | inHost
    · exact reformed.notElsewhere other isOther here
    · exact isOther (books.apart other host key here inHost)
  constructor
  · intro other
    rw [reformed.loads, reformed.conns]
    exact books.loads other
  · intro other
    rw [reformed.hostLoads, reformed.conns]
    exact books.hostLoads other
  · intro other
    by_cases isHost : other = host
    · rw [isHost]
      exact reformed.active
    · rw [reformed.otherHosts other isHost, books.active other]
      apply (marked_congr _).symm
      intro key mem
      exact runs key fun isProc => reformed.notElsewhere other isHost (isProc ▸ mem)
  · intro other
    by_cases isHost : other = host
    · rw [isHost]
      exact reformed.once
    · rw [reformed.otherHosts other isHost]
      exact books.once other
  · intro other another key mem mem'
    by_cases isHost : other = host
    · by_cases isHost' : another = host
      · rw [isHost, isHost']
      · rw [isHost] at mem
        rw [reformed.otherHosts another isHost'] at mem'
        exact absurd mem' (apart another key isHost' mem)
    · rw [reformed.otherHosts other isHost] at mem
      by_cases isHost' : another = host
      · rw [isHost'] at mem'
        exact absurd mem (apart other key isHost mem')
      · rw [reformed.otherHosts another isHost'] at mem'
        exact books.apart other another key mem mem'
  · intro other key mem
    by_cases isHost : other = host
    · rw [isHost] at mem
      rcases reformed.members key mem with rfl | inHost
      · exact reformed.known
      · exact lt_of_lt_of_le (books.known host key inHost) reformed.next
    · rw [reformed.otherHosts other isHost] at mem
      exact lt_of_lt_of_le (books.known other key mem) reformed.next
  · intro other key mem
    by_cases isHost : other = host
    · rw [isHost] at mem
      exact reformed.stopped key mem
    · rw [reformed.otherHosts other isHost] at mem
      rw [runs key fun isProc => reformed.notElsewhere other isHost (isProc ▸ mem_unused mem)]
      exact books.stopped other key mem
  · intro key isBusy
    rw [reformed.loads] at isBusy
    rcases books.busy key isBusy with ⟨owner, owned⟩
    exact ⟨owner, stays owner key owned isBusy⟩
  · intro slot mem key isKey
    rw [reformed.conns] at mem
    rcases books.bound slot mem key isKey with ⟨owner, isOwner, owned⟩
    exact ⟨owner, isOwner, stays owner key owned (load_pos_of_held books mem isKey)⟩

theorem update_same {Value Field : Type} (field : Value → Field) {values : Nat → Value} {place : Nat}
    {new : Value} (same : field new = field (values place)) (other : Nat) :
    field (update values place new other) = field (values other) := by
  by_cases isPlace : other = place
  · rw [isPlace, update_self, same]
  · rw [update_of_ne isPlace]

theorem on_proc_books (books : Books srv lost)
    (mem : proc ∈ procsOf (srv.hosts host))
    (tracked : Tracked (srv.hosts host) (srv.procs proc) (change (srv.hosts host) (srv.procs proc)))
    (stays : proc ∈ (srv.hosts host).unusedProcs →
      (change (srv.hosts host) (srv.procs proc)).2.state ≠ .running) :
    Books (onProc srv host proc change) lost := by
  unfold onProc
  generalize change (srv.hosts host) (srv.procs proc) = pair at tracked stays
  have lists : procsOf pair.1 = procsOf (srv.hosts host) := by
    unfold procsOf
    rw [tracked.first, tracked.unused]
  have stopped : ∀ key ∈ (srv.hosts host).unusedProcs,
      (update srv.procs proc pair.2 key).state ≠ .running := by
    intro key inUnused
    by_cases isProc : key = proc
    · rw [isProc, update_self]
      exact stays (isProc ▸ inUnused)
    · rw [update_of_ne isProc]
      exact books.stopped host key inUnused
  apply @reformed_books srv lost _ host proc books
  constructor
  · rfl
  · exact update_same GwProc.load tracked.load
  · exact update_same GwHost.load tracked.hostLoad
  · intro other isOther
    exact update_of_ne isOther _ _
  · intro other isOther
    exact congrArg GwProc.state (update_of_ne isOther _ _)
  · intro other isOther here
    exact isOther (books.apart other host proc here mem)
  · exact le_rfl
  · exact books.known host proc mem
  · change (procsOf (update srv.hosts host pair.1 host)).Nodup
    rw [update_self, lists]
    exact books.once host
  · change ∀ key ∈ procsOf (update srv.hosts host pair.1 host), _
    rw [update_self, lists]
    exact fun key inHost => .inr inHost
  · have changed : ∀ key, key ≠ proc → (Running
        { srv with
          hosts := update srv.hosts host pair.1
          procs := update srv.procs proc pair.2 } key ↔ Running srv key) := by
      intro key isOther
      unfold Running
      simp only [update_of_ne isOther]
    simp only [update_self, lists]
    rw [tracked.active, books.active host, marked_change (books.once host) mem changed]
    congr 1
    apply one_congr
    unfold Running
    simp only [update_self]
  · change ∀ key ∈ (update srv.hosts host pair.1 host).unusedProcs, _
    rw [update_self, tracked.unused]
    exact stopped
  · change ∀ key ∈ _, key ≠ proc → key ∈ (update srv.hosts host pair.1 host).first
    rw [update_self, tracked.first]
    exact fun key inFirst _ => inFirst
  · change _ → proc ∈ (update srv.hosts host pair.1 host).first
    rw [update_self, tracked.first]
    intro isBusy
    rcases books.busy proc isBusy with ⟨owner, owned⟩
    rw [← books.apart owner host proc (mem_first owned) mem]
    exact owned

theorem on_host_books (books : Books srv lost) {change : GwHost → GwHost}
    (active : (change (srv.hosts host)).activeProcs = (srv.hosts host).activeProcs)
    (load : (change (srv.hosts host)).load = (srv.hosts host).load)
    (first : (change (srv.hosts host)).first = (srv.hosts host).first)
    (unused : (change (srv.hosts host)).unusedProcs = (srv.hosts host).unusedProcs) :
    Books (onHost srv host change) lost := by
  have fields : ∀ other, ((onHost srv host change).hosts other).activeProcs =
        (srv.hosts other).activeProcs ∧
      ((onHost srv host change).hosts other).load = (srv.hosts other).load ∧
      ((onHost srv host change).hosts other).first = (srv.hosts other).first ∧
      ((onHost srv host change).hosts other).unusedProcs = (srv.hosts other).unusedProcs := by
    intro other
    unfold onHost
    by_cases isHost : other = host
    · rw [isHost]
      simp only [update_self]
      exact ⟨active, load, first, unused⟩
    · simp only [update_of_ne isHost]
      exact ⟨trivial, trivial, trivial, trivial⟩
  have allProcs : ∀ other, procsOf ((onHost srv host change).hosts other) =
      procsOf (srv.hosts other) := by
    intro other
    unfold procsOf
    rw [(fields other).2.2.1, (fields other).2.2.2]
  constructor
  · exact books.loads
  · intro other
    rw [(fields other).2.1]
    exact books.hostLoads other
  · intro other
    rw [(fields other).1, allProcs]
    exact books.active other
  · intro other
    rw [allProcs]
    exact books.once other
  · intro other another
    rw [allProcs, allProcs]
    exact books.apart other another
  · intro other
    rw [allProcs]
    exact books.known other
  · intro other
    rw [(fields other).2.2.2]
    exact books.stopped other
  · intro other isBusy
    rcases books.busy other isBusy with ⟨owner, owned⟩
    exact ⟨owner, (fields owner).2.2.1 ▸ owned⟩
  · intro slot slotMem key isKey
    rcases books.bound slot slotMem key isKey with ⟨owner, isOwner, owned⟩
    exact ⟨owner, isOwner, (fields owner).2.2.1 ▸ owned⟩

/-- A process that is in no list: it is new, or has been taken from the unused ones. -/
structure Detached (srv : Server) (proc : Nat) : Prop where
  nowhere : ∀ host, proc ∉ procsOf (srv.hosts host)
  known : proc < srv.nextProc
  stopped : (srv.procs proc).state ≠ .running

theorem insert_books (books : Books srv lost) (detached : Detached srv proc)
    {pair : GwHost × GwProc} (tracked : Tracked (srv.hosts host) (srv.procs proc) pair)
    {record : GwHost} (active : record.activeProcs = pair.1.activeProcs)
    (load : record.load = pair.1.load)
    (lists : record.first = proc :: pair.1.first ∧ record.unusedProcs = pair.1.unusedProcs ∨
      record.first = pair.1.first ∧ record.unusedProcs = proc :: pair.1.unusedProcs ∧
        pair.2.state ≠ .running) : Books { srv with
      hosts := update srv.hosts host record
      procs := update srv.procs proc pair.2 } lost := by
  have here : proc ∉ procsOf (srv.hosts host) := detached.nowhere host
  have perm : (procsOf record).Perm (proc :: procsOf (srv.hosts host)) := by
    unfold procsOf
    rcases lists with ⟨first, unused⟩ | ⟨first, unused, -⟩
    · rw [first, unused, tracked.first, tracked.unused]
      exact List.Perm.refl _
    · rw [first, unused, tracked.first, tracked.unused]
      exact perm_middle
  have runs : ∀ key ∈ procsOf (srv.hosts host), (Running { srv with
      hosts := update srv.hosts host record
      procs := update srv.procs proc pair.2 } key ↔ Running srv key) := by
    intro key mem
    have isOther : key ≠ proc := fun isProc => here (isProc ▸ mem)
    unfold Running
    simp only [update_of_ne isOther]
  apply @reformed_books srv lost _ host proc books
  constructor
  · rfl
  · exact update_same GwProc.load tracked.load
  · exact update_same GwHost.load (load.trans tracked.hostLoad)
  · intro other isOther
    exact update_of_ne isOther _ _
  · intro other isOther
    exact congrArg GwProc.state (update_of_ne isOther _ _)
  · intro other _
    exact detached.nowhere other
  · exact le_rfl
  · exact detached.known
  · simp only [update_self]
    exact perm.nodup_iff.mpr (nodup_cons.mpr ⟨here, books.once host⟩)
  · simp only [update_self]
    intro key mem
    exact mem_cons.mp (perm.mem_iff.mp mem)
  · simp only [update_self]
    rw [marked_perm _ perm, marked_cons, marked_congr runs, active, tracked.active,
      books.active host, one_false detached.stopped, Int.sub_zero]
    congr 1
    apply one_congr
    unfold Running
    simp only [update_self]
  · simp only [update_self]
    intro key mem
    have cases_ : key ∈ (srv.hosts host).unusedProcs ∨ key = proc ∧ pair.2.state ≠ .running := by
      rcases lists with ⟨-, unused⟩ | ⟨-, unused, stops⟩
      · rw [unused, tracked.unused] at mem
        exact .inl mem
      · rw [unused, tracked.unused] at mem
        exact (mem_cons.mp mem).symm.imp_right fun isProc => ⟨isProc, stops⟩
    rcases cases_ with inUnused | ⟨isProc, stops⟩
    · rw [runs key (mem_unused inUnused)]
      exact books.stopped host key inUnused
    · unfold Running
      simp only [isProc, update_self]
      exact stops
  · simp only [update_self]
    intro key mem _
    rcases lists with ⟨first, -⟩ | ⟨first, -⟩
    · rw [first, tracked.first]
      exact mem_cons_of_mem _ mem
    · rw [first, tracked.first]
      exact mem
  · intro isBusy
    rcases books.busy proc isBusy with ⟨owner, owned⟩
    exact absurd (mem_first owned) (detached.nowhere owner)

theorem take_unused_books (books : Books srv lost)
    (mem : proc ∈ (srv.hosts host).unusedProcs) : Books (onHost srv host fun record =>
        { record with unusedProcs := record.unusedProcs.erase proc }) lost ∧
      Detached (onHost srv host fun record =>
        { record with unusedProcs := record.unusedProcs.erase proc }) proc := by
  have split : (procsOf (srv.hosts host)).Perm (proc ::
      ((srv.hosts host).first ++ (srv.hosts host).unusedProcs.erase proc)) :=
    (List.Perm.append_left _ (perm_cons_erase mem)).trans perm_middle
  have once := split.nodup_iff.mp (books.once host)
  rw [nodup_cons] at once
  have elsewhere : ∀ other, other ≠ host → proc ∉ procsOf (srv.hosts other) := fun other isOther here =>
    isOther (books.apart other host proc here (mem_unused mem))
  have stopped := books.stopped host proc mem
  constructor
  · apply @reformed_books srv lost _ host proc books
    unfold onHost
    constructor
    · rfl
    · exact fun _ => rfl
    · exact update_same GwHost.load rfl
    · intro other isOther
      exact update_of_ne isOther _ _
    · exact fun _ _ => rfl
    · exact elsewhere
    · exact le_rfl
    · exact books.known host proc (mem_unused mem)
    · simp only [update_self]
      exact once.2
    · simp only [update_self]
      intro key keyMem
      exact .inr (split.mem_iff.mpr (mem_cons_of_mem _ keyMem))
    · simp only [update_self]
      rw [books.active host, marked_perm _ split, marked_cons, one_false stopped, Int.add_zero]
      rfl
    · simp only [update_self]
      exact fun key keyMem => books.stopped host key (mem_of_mem_erase keyMem)
    · simp only [update_self]
      exact fun key keyMem _ => keyMem
    · simp only [update_self]
      intro isBusy
      rcases books.busy proc isBusy with ⟨owner, owned⟩
      rw [← books.apart owner host proc (mem_first owned) (mem_unused mem)]
      exact owned
  · constructor
    · intro other
      unfold onHost
      by_cases isHost : other = host
      · rw [isHost]
        simp only [update_self]
        exact once.1
      · simp only [update_of_ne isHost]
        exact elsewhere other isHost
    · exact books.known host proc (mem_unused mem)
    · exact stopped

theorem kill_books (books : Books srv lost) (mem : proc ∈ (srv.hosts host).first)
    (idle : (srv.procs proc).load = 0) : Books (gwProcKill srv host proc) lost := by
  have moved : ((srv.hosts host).first.erase proc ++ proc :: (srv.hosts host).unusedProcs).Perm
      (procsOf (srv.hosts host)) :=
    perm_middle.trans ((perm_cons_erase mem).symm.append_right _)
  have tracked := fun record => (set_state_tracked record
    { srv.procs proc with disabledUntil := 0 } .killed)
  have stops := fun record => (set_state_state record
    { srv.procs proc with disabledUntil := 0 } .killed)
  simp only [gwProcKill, onProc, onHost, update_self, update_idem]
  generalize isRecord : ({ srv.hosts host with
    first := (srv.hosts host).first.erase proc
    unusedProcs := proc :: (srv.hosts host).unusedProcs
    numProcs := (srv.hosts host).numProcs - 1 } : GwHost) = record
  specialize tracked record
  specialize stops record
  generalize gwProcSetState record { srv.procs proc with disabledUntil := 0 } .killed = pair
    at tracked stops ⊢
  have first : pair.1.first = (srv.hosts host).first.erase proc := by
    rw [tracked.first, ← isRecord]
  have unused : pair.1.unusedProcs = proc :: (srv.hosts host).unusedProcs := by
    rw [tracked.unused, ← isRecord]
  have lists : procsOf pair.1 =
      (srv.hosts host).first.erase proc ++ proc :: (srv.hosts host).unusedProcs := by
    unfold procsOf
    rw [first, unused]
  have changed : ∀ key, key ≠ proc → (Running
      { srv with
        hosts := update srv.hosts host pair.1
        procs := update srv.procs proc pair.2 } key ↔ Running srv key) := by
    intro key isOther
    unfold Running
    simp only [update_of_ne isOther]
  apply @reformed_books srv lost _ host proc books
  constructor
  · rfl
  · exact update_same GwProc.load tracked.load
  · apply update_same GwHost.load
    rw [tracked.hostLoad, ← isRecord]
  · intro other isOther
    exact update_of_ne isOther _ _
  · intro other isOther
    exact congrArg GwProc.state (update_of_ne isOther _ _)
  · intro other isOther here
    exact isOther (books.apart other host proc here (mem_first mem))
  · exact le_rfl
  · exact books.known host proc (mem_first mem)
  · simp only [update_self, lists]
    exact moved.nodup_iff.mpr (books.once host)
  · simp only [update_self, lists]
    exact fun key keyMem => .inr (moved.mem_iff.mp keyMem)
  · have wasActive : record.activeProcs = (srv.hosts host).activeProcs := by
      rw [← isRecord]
    simp only [update_self, lists]
    rw [tracked.active, wasActive, books.active host, marked_perm _ moved,
      marked_change (books.once host) (mem_first mem) changed]
    congr 1
    apply one_congr
    unfold Running
    simp only [update_self]
  · simp only [update_self, unused]
    intro key keyMem
    unfold Running
    by_cases isProc : key = proc
    · simp only [isProc, update_self, stops]
      exact nofun
    · simp only [update_of_ne isProc]
      exact books.stopped host key ((mem_cons.mp keyMem).resolve_left isProc)
  · simp only [update_self, first]
    exact fun key keyMem isOther => (mem_erase_of_ne isOther).mpr keyMem
  · exact fun isBusy => absurd idle isBusy

end Keeping

/-- Upkeep of hosts and processes: the requests stay, and the books with them. -/
structure Upkeep (srv after : Server) : Prop where
  conns : after.conns = srv.conns
  books : ∀ lost, Books srv lost → Books after lost

section Maintaining

variable {srv : Server}

theorem Upkeep.refl (srv : Server) : Upkeep srv srv := ⟨rfl, fun _ books => books⟩

theorem Upkeep.trans {between after : Server} (first : Upkeep srv between)
    (second : Upkeep between after) : Upkeep srv after :=
  ⟨second.conns.trans first.conns, fun lost books => second.books lost (first.books lost books)⟩

theorem on_proc_upkeep {host proc : Nat}
    (mem : proc ∈ (srv.hosts host).first)
    (tracked : Tracked (srv.hosts host) (srv.procs proc) (change (srv.hosts host) (srv.procs proc))) :
    Upkeep srv (onProc srv host proc change) := by
  constructor
  · rfl
  · intro lost books
    apply on_proc_books books (mem_first mem) tracked
    intro inUnused
    have once := disjoint_of_nodup_append (books.once host)
    exact absurd inUnused (once mem)

variable {procs : List Nat} {lost : Nat → Nat}

section

variable {host : Nat} {change : Nat → GwHost → GwProc → GwHost × GwProc}
  (tracked : ∀ key record process, Tracked record process (change key record process))
include tracked

theorem over_first_upkeep (inFirst : ∀ proc ∈ procs, proc ∈ (srv.hosts host).first) :
    Upkeep srv (overProcs srv host change procs) := by
  induction procs generalizing srv with
  | nil => exact Upkeep.refl srv
  | cons proc procs ih =>
    have here := inFirst proc mem_cons_self
    have one_ := tracked proc (srv.hosts host) (srv.procs proc)
    apply (on_proc_upkeep here one_).trans
    apply ih
    intro key mem
    simp only [onProc, update_self]
    rw [one_.first]
    exact inFirst key (mem_cons_of_mem _ mem)

theorem over_unused_upkeep
    (stops : ∀ key record process, process.state ≠ .running → (change key record process).2.state ≠ .running)
    (inUnused : ∀ proc ∈ procs, proc ∈ (srv.hosts host).unusedProcs) :
    Upkeep srv (overProcs srv host change procs) := by
  induction procs generalizing srv with
  | nil => exact Upkeep.refl srv
  | cons proc procs ih =>
    have here := inUnused proc mem_cons_self
    have one_ := tracked proc (srv.hosts host) (srv.procs proc)
    have turn : Upkeep srv (onProc srv host proc (change proc)) := by
      constructor
      · rfl
      · intro lost books
        apply on_proc_books books (mem_unused here) one_
        intro _
        exact stops proc _ _ (books.stopped host proc here)
    apply turn.trans
    apply ih
    intro key mem
    simp only [onProc, update_self]
    rw [one_.unused]
    exact inUnused key (mem_cons_of_mem _ mem)

end

theorem restart_dead_procs_upkeep (oracle : Oracle) (host : Nat) :
    Upkeep srv (gwRestartDeadProcs srv oracle host) :=
  over_first_upkeep (fun _ => restart_proc_tracked srv.curTs _ _) fun _ mem => mem

theorem spawn_detached_books (books : Books srv lost)
    (detached : Detached srv proc) : Books (spawnDetached srv host proc outcome) lost := by
  unfold spawnDetached
  by_cases noAddress : outcome.sockaddr = false
  · rw [if_pos (by simp [noAddress])]
    exact on_host_books books rfl rfl rfl rfl
  · rw [if_neg (by simpa using noAddress)]
    have counted : Books (onHost srv host fun record =>
        { record with numProcs := record.numProcs + 1 }) lost := on_host_books books rfl rfl rfl rfl
    have stillDetached : Detached (onHost srv host fun record =>
        { record with numProcs := record.numProcs + 1 }) proc := by
      constructor
      · intro other
        have same := update_same procsOf (show procsOf { srv.hosts host with
          numProcs := (srv.hosts host).numProcs + 1 } = procsOf (srv.hosts host) from rfl) other
        exact fun mem => detached.nowhere other (same ▸ mem)
      · exact detached.known
      · exact detached.stopped
    generalize onHost srv host (fun record => { record with numProcs := record.numProcs + 1 }) = before
      at counted stillDetached
    have tracked := spawn_connection_tracked before.curTs outcome.spawned (before.hosts host)
      (before.procs proc)
    have stops := @spawn_failed_stopped before.curTs outcome.spawned (before.hosts host)
      (before.procs proc) stillDetached.stopped
    dsimp only
    generalize gwSpawnConnection before.curTs outcome.spawned (before.hosts host)
      (before.procs proc) = result at tracked stops
    simp only [onProc, onHost, update_self, update_idem]
    split_ifs with failed
    · exact insert_books counted stillDetached tracked rfl rfl (.inr ⟨rfl, rfl, stops failed⟩)
    · exact insert_books counted stillDetached tracked rfl rfl (.inl ⟨rfl, rfl⟩)

theorem spawn_detached_conns : (spawnDetached srv host proc outcome).conns = srv.conns := by
  unfold spawnDetached
  dsimp only
  split_ifs <;> rfl

theorem new_proc_books (books : Books srv lost) {id : Nat} : Books { srv with
        procs := update srv.procs srv.nextProc { id := id }
        nextProc := srv.nextProc + 1 } lost ∧
      Detached { srv with
        procs := update srv.procs srv.nextProc { id := id }
        nextProc := srv.nextProc + 1 } srv.nextProc := by
  have nowhere : ∀ host, srv.nextProc ∉ procsOf (srv.hosts host) := fun host mem =>
    lt_irrefl _ (books.known host srv.nextProc mem)
  have idle : (srv.procs srv.nextProc).load = 0 := by
    by_contra isBusy
    rcases books.busy srv.nextProc isBusy with ⟨owner, owned⟩
    exact nowhere owner (mem_first owned)
  have runs : ∀ host, ∀ key ∈ procsOf (srv.hosts host), (Running { srv with
      procs := update srv.procs srv.nextProc { id := id }
      nextProc := srv.nextProc + 1 } key ↔ Running srv key) := by
    intro host key mem
    have isOther : key ≠ srv.nextProc := fun isNext => nowhere host (isNext ▸ mem)
    unfold Running
    simp only [update_of_ne isOther]
  constructor
  · apply @reformed_books srv lost _ 0 srv.nextProc books
    constructor
    · rfl
    · exact update_same GwProc.load idle.symm
    · exact fun _ => rfl
    · exact fun _ _ => rfl
    · intro other isOther
      exact congrArg GwProc.state (update_of_ne isOther _ _)
    · exact fun other _ => nowhere other
    · exact Nat.le_succ _
    · exact Nat.lt_succ_self _
    · exact books.once 0
    · exact fun key mem => .inr mem
    · exact (books.active 0).trans (marked_congr (runs 0)).symm
    · intro key mem
      rw [runs 0 key (mem_unused mem)]
      exact books.stopped 0 key mem
    · exact fun key mem _ => mem
    · exact fun isBusy => absurd idle isBusy
  · constructor
    · exact nowhere
    · exact Nat.lt_succ_self _
    · simp only [update_self]
      exact nofun

theorem proc_spawn_upkeep : Upkeep srv (gwProcSpawn srv host outcome) := by
  unfold gwProcSpawn
  cases isFound : (srv.hosts host).unusedProcs.find? fun proc => (srv.procs proc).pid ≤ 0 with
  | some proc =>
    have mem := mem_of_find?_eq_some isFound
    dsimp only
    split_ifs
    · exact Upkeep.refl srv
    · constructor
      · exact spawn_detached_conns
      · intro lost books
        rcases take_unused_books books mem with ⟨taken, detached⟩
        exact spawn_detached_books taken detached
  | none =>
    constructor
    · exact spawn_detached_conns
    · intro lost books
      have numbered : Books (onHost srv host fun record =>
          { record with maxId := record.maxId + 1 }) lost := on_host_books books rfl rfl rfl rfl
      rcases new_proc_books numbered with ⟨made, detached⟩
      exact spawn_detached_books made detached

theorem spawn_first_upkeep (hosts : List Nat) (srv : Server) :
    Upkeep srv (spawnFirst oracle hosts srv).1 := by
  induction hosts generalizing srv with
  | nil => exact Upkeep.refl srv
  | cons host hosts ih =>
    unfold spawnFirst
    dsimp only
    split_ifs
    · exact proc_spawn_upkeep
    · exact (proc_spawn_upkeep).trans (ih _)
    · exact ih srv

theorem save_ndx_upkeep (ext : Nat) (balance : Balance) (ndx : Option Nat) :
    Upkeep srv (saveNdx srv ext balance ndx) := by
  unfold saveNdx
  split_ifs
  · constructor
    · rfl
    · intro lost books
      exact ⟨books.loads, books.hostLoads, books.active, books.once, books.apart, books.known,
        books.stopped, books.busy, books.bound⟩
  · exact Upkeep.refl srv

theorem host_get_upkeep (oracle : Oracle) (ext : Nat) (balance : Balance) (weight : Nat → Nat) :
    Upkeep srv (gwHostGet srv oracle ext balance weight).1 := by
  unfold gwHostGet
  dsimp only
  generalize chooseNdx srv (srv.exts ext) balance weight = ndx
  have saved := @save_ndx_upkeep srv ext balance ndx
  generalize saveNdx srv ext balance ndx = after at saved
  cases ndx with
  | some k => exact saved
  | none =>
    split_ifs
    · exact saved.trans (spawn_first_upkeep _ after)
    · exact saved

theorem wait_first_upkeep (oracle : Oracle) (host : Nat) :
    Upkeep srv (waitProcs srv oracle host (srv.hosts host).first) :=
  over_first_upkeep (fun _ => waitpid_tracked srv.curTs _) fun _ mem => mem

theorem wait_unused_upkeep : Upkeep srv (waitProcs srv oracle host (srv.hosts host).unusedProcs) :=
  over_unused_upkeep (fun _ => waitpid_tracked srv.curTs _)
    (fun _ _ _ stopped => waitpid_stopped srv.curTs _ _ stopped) fun _ mem => mem

theorem grow_procs_upkeep : Upkeep srv (growProcs srv oracle host) := by
  unfold growProcs
  dsimp only
  split_ifs
  · exact proc_spawn_upkeep
  · exact Upkeep.refl srv

theorem shrink_procs_upkeep : Upkeep srv (shrinkProcs srv host) := by
  unfold shrinkProcs
  dsimp only
  split_ifs
  · exact Upkeep.refl srv
  · cases isFound : (srv.hosts host).first.find? fun proc =>
      (srv.procs proc).load = 0 ∧ 0 < (srv.procs proc).pid ∧
        (srv.procs proc).lastUsed < srv.curTs - (srv.hosts host).idleTimeout with
    | none => exact Upkeep.refl srv
    | some proc =>
      have idle := find?_some isFound
      simp only [decide_eq_true_eq] at idle
      constructor
      · rfl
      · intro lost books
        exact kill_books books (mem_of_find?_eq_some isFound) idle.1

theorem trigger_host_upkeep (oracle : Oracle) (host : Nat) :
    Upkeep srv (gwHandleTriggerHost srv oracle host) := by
  unfold gwHandleTriggerHost
  dsimp only
  have restarted := (@wait_first_upkeep srv oracle host).trans (restart_dead_procs_upkeep oracle host)
  generalize gwRestartDeadProcs (waitProcs srv oracle host (srv.hosts host).first) oracle host = after
    at restarted
  split_ifs
  · exact restarted
  · exact restarted
  · exact ((restarted.trans grow_procs_upkeep).trans shrink_procs_upkeep).trans
      wait_unused_upkeep

theorem child_of_mem {pid : Int} (isChild : childOf srv pid procs = some proc) : proc ∈ procs :=
  mem_of_find?_eq_some isChild

theorem waitpid_hosts_upkeep (oracle : Oracle) (pid : Int) (hosts : List Nat) :
    Upkeep srv (waitpidHosts oracle pid hosts srv) := by
  induction hosts with
  | nil => exact Upkeep.refl srv
  | cons host hosts ih =>
    unfold waitpidHosts
    cases isFirst : childOf srv pid (srv.hosts host).first with
    | some proc => exact on_proc_upkeep (child_of_mem isFirst) (child_ended_tracked srv.curTs _ _ _)
    | none =>
      cases isUnused : childOf srv pid (srv.hosts host).unusedProcs with
      | some proc =>
        constructor
        · rfl
        · intro lost books
          exact on_proc_books books (mem_unused (child_of_mem isUnused))
            (unused_ended_tracked srv.curTs) fun _ => unused_ended_stopped srv.curTs
      | none => exact ih

theorem reap_child_upkeep (oracle : Oracle) {host proc : Nat} (hctx : GwHandlerCtx)
    (mem : proc ∈ (srv.hosts host).first) : Upkeep srv (reapChild srv oracle host proc hctx) := by
  unfold reapChild
  dsimp only
  split_ifs
  · exact on_proc_upkeep mem (reap_tracked srv.curTs _ _ _ _)
  · exact Upkeep.refl srv

end Maintaining

end ServerCore.LighttpdGwBackendLoad
