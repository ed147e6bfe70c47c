import Mathlib.Algebra.Group.Int.Defs
import Mathlib.Algebra.Group.Nat.Defs
import Mathlib.Data.List.Basic

/-!
# The load of gateway backends

The part of `gw_backend.c` that assigns requests to hosts and processes: the
counters `proc->load`, `host->load` and `host->active_procs`, the states of a
process, the choice of a host and of a process, connecting, reconnecting and
closing, and the periodic maintenance of the processes. A process and a host are
named by their addresses, a connection by its place in `srv->conns`, and its
slot holds `con->plugin_ctx[p->id]`. The counters are integers, since they are
compared and moved by one only. What the operating system answers is an argument
of the call that asks it. The queues of a request are left out.
-/

namespace ServerCore.LighttpdGwBackend

open Function

inductive ProcState where
  | running
  | overloaded
  | diedWaitForPid
  | died
  | killed
  deriving DecidableEq

/-- As `gw_proc_init` leaves it. -/
structure GwProc where
  id : Nat := 0
  load : Int := 0
  state : ProcState := .died
  isLocal : Bool := false
  pid : Int := 0
  disabledUntil : Int := 0
  lastUsed : Int := 0

/-- `binPath` is whether `bin-path` is set. -/
structure GwHost where
  first : List Nat := []
  unusedProcs : List Nat := []
  load : Int := 0
  activeProcs : Int := 0
  numProcs : Int := 0
  maxId : Nat := 0
  minProcs : Nat := 4
  maxProcs : Nat := 4
  maxLoadPerProc : Nat := 1
  idleTimeout : Nat := 60
  disableTime : Nat := 1
  binPath : Bool := false

inductive Balance where
  | leastConnection
  | roundRobin
  | hash
  | sticky
  deriving DecidableEq

structure GwExtension where
  hosts : List Nat := []
  lastUsedNdx : Int := -1

inductive GwState where
  | init
  | connectDelayed
  | prepareWrite
  | write
  | read
  deriving DecidableEq

/-- `fd` is whether a socket is open. -/
structure GwHandlerCtx where
  proc : Option Nat := none
  host : Option Nat := none
  ext : Option Nat := none
  authorizer : Bool := false
  state : GwState := .init
  fd : Bool := false
  pid : Int := 0
  reconnects : Nat := 0
  balance : Balance := .leastConnection
  deriving DecidableEq

inductive HandlerT where
  | goOn
  | finished
  | comeback
  | waitForEvent
  | error
  | waitForFd
  deriving DecidableEq

/-- `failed` is the connection for which `gw_write_request` has just returned
`HANDLER_ERROR`, so that `gw_write_error` is what runs next. -/
structure Server where
  curTs : Int
  maxWorker : Nat
  procs : Nat → GwProc
  nextProc : Nat
  hosts : Nat → GwHost
  exts : Nat → GwExtension
  allHosts : List Nat
  conns : List (Option GwHandlerCtx)
  failed : Option Nat

def gwProcSetState (host : GwHost) (proc : GwProc) (state : ProcState) : GwHost × GwProc :=
  if proc.state = state then (host, proc)
  else
    (if proc.state = .running then { host with activeProcs := host.activeProcs - 1 }
     else if state = .running then { host with activeProcs := host.activeProcs + 1 }
     else host,
     { proc with state := state })

def gwProcConnectError (curTs : Int) (pid : Int) (host : GwHost) (proc : GwProc) :
    GwHost × GwProc :=
  if !proc.isLocal then
    gwProcSetState host { proc with disabledUntil := curTs + host.disableTime } .overloaded
  else if proc.pid = pid ∧ proc.state = .running then
    gwProcSetState host { proc with disabledUntil := curTs + host.disableTime } .overloaded
  else (host, proc)

def gwProcConnectSuccess (curTs : Int) (host : GwHost) (proc : GwProc) : GwHost × GwProc :=
  (host, { proc with lastUsed := curTs })

def gwProcCheckEnable (curTs : Int) (host : GwHost) (proc : GwProc) : GwHost × GwProc :=
  if curTs ≤ proc.disabledUntil then (host, proc)
  else if proc.state ≠ .overloaded then (host, proc)
  else gwProcSetState host proc .running

/-- What `waitpid` says of a child. A child that is not found is gone, too. -/
inductive Waited where
  | stillRunning
  | gone
  deriving DecidableEq

/-- The first component is whether the child has ended. -/
def gwProcWaitpid (curTs : Int) (waited : Waited) (host : GwHost) (proc : GwProc) :
    Bool × GwHost × GwProc :=
  if !proc.isLocal then (false, host, proc)
  else if proc.pid ≤ 0 then (false, host, proc)
  else if waited = .stillRunning then (false, host, proc)
  else
    (true, gwProcSetState host
      { proc with
        pid := 0
        disabledUntil := if proc.state ≠ .killed then curTs else proc.disabledUntil } .died)

/-- What happens to `gw_spawn_connection`: a call before the fork fails, the fork fails, there
is a child, or the address is in use already. -/
inductive Spawned where
  | notListening
  | forkFailed
  | forked (pid : Int) (waited : Waited)
  | inUse

def gwSpawnConnection (curTs : Int) (spawned : Spawned) (host : GwHost) (proc : GwProc) :
    Bool × GwHost × GwProc :=
  match spawned with
  | .notListening => (true, host, proc)
  | .forkFailed => (true, host, { proc with pid := 0, disabledUntil := curTs })
  | .forked pid waited =>
    match gwProcWaitpid curTs waited host
        { proc with pid := pid, lastUsed := curTs, isLocal := true } with
    | (true, host, proc) => (true, host, proc)
    | (false, host, proc) => (false, gwProcSetState host proc .running)
  | .inUse => (false, gwProcSetState host { proc with isLocal := false, pid := 0 } .running)

variable (srv : Server)

/-- A function of a host and one process, written back. -/
def onProc (host proc : Nat) (change : GwHost → GwProc → GwHost × GwProc) : Server :=
  { srv with
    hosts := update srv.hosts host (change (srv.hosts host) (srv.procs proc)).1
    procs := update srv.procs proc (change (srv.hosts host) (srv.procs proc)).2 }

def onHost (host : Nat) (change : GwHost → GwHost) : Server :=
  { srv with hosts := update srv.hosts host (change (srv.hosts host)) }

def gwProcLoadInc (proc : Nat) : Server :=
  let record := { srv.procs proc with load := (srv.procs proc).load + 1 }
  { srv with procs := update srv.procs proc record }

def gwProcLoadDec (proc : Nat) : Server :=
  let record := { srv.procs proc with load := (srv.procs proc).load - 1 }
  { srv with procs := update srv.procs proc record }

def gwHostAssign (host : Nat) : Server :=
  onHost srv host fun host => { host with load := host.load + 1 }

def gwHostReset (host : Nat) : Server :=
  onHost srv host fun host => { host with load := host.load - 1 }

/-- `sockaddr` is whether `gw_proc_sockaddr_init` succeeds. -/
structure SpawnOutcome where
  sockaddr : Bool
  spawned : Spawned

/-- The part of `gw_proc_spawn` behind the search, for a process that is in no list. A process
without an address is freed. -/
def spawnDetached (host proc : Nat) (outcome : SpawnOutcome) : Server :=
  if !outcome.sockaddr then
    onHost srv host fun record =>
      { record with
        maxId := if (srv.procs proc).id + 1 = record.maxId then record.maxId - 1 else record.maxId }
  else
    let srv := onHost srv host fun record => { record with numProcs := record.numProcs + 1 }
    let result := gwSpawnConnection srv.curTs outcome.spawned (srv.hosts host) (srv.procs proc)
    let srv := onProc srv host proc fun _ _ => result.2
    if result.1 then
      onHost srv host fun record => { record with unusedProcs := proc :: record.unusedProcs }
    else onHost srv host fun record => { record with first := proc :: record.first }

def gwProcSpawn (host : Nat) (outcome : SpawnOutcome) : Server :=
  match (srv.hosts host).unusedProcs.find? fun proc => (srv.procs proc).pid ≤ 0 with
  | some proc =>
    if (srv.procs proc).disabledUntil ≥ srv.curTs then srv
    else
      spawnDetached (onHost srv host fun record =>
        { record with unusedProcs := record.unusedProcs.erase proc }) host proc outcome
  | none =>
    spawnDetached { onHost srv host fun record => { record with maxId := record.maxId + 1 } with
      procs := update srv.procs srv.nextProc { id := (srv.hosts host).maxId }
      nextProc := srv.nextProc + 1 } host srv.nextProc outcome

def gwProcKill (host proc : Nat) : Server :=
  let srv := onHost srv host fun record =>
    { record with
      first := record.first.erase proc
      unusedProcs := proc :: record.unusedProcs
      numProcs := record.numProcs - 1 }
  onProc srv host proc fun host proc =>
    gwProcSetState host { proc with disabledUntil := 0 } .killed

/-- What the operating system says of each process. -/
structure Oracle where
  waited : Nat → Waited
  spawned : Nat → Spawned
  spawn : Nat → SpawnOutcome

/-- The end of a turn of `gw_restart_dead_procs`, for a process that is dead. -/
def restartDead (curTs : Int) (spawned : Spawned) (host : GwHost) (proc : GwProc) :
    GwHost × GwProc :=
  if host.binPath then
    if proc.load ≠ 0 then (host, proc)
    else if proc.disabledUntil ≥ curTs then (host, proc)
    else (gwSpawnConnection curTs spawned host proc).2
  else gwProcCheckEnable curTs host proc

def restartProc (curTs : Int) (waited : Waited) (spawned : Spawned) (host : GwHost)
    (proc : GwProc) : GwHost × GwProc :=
  match proc.state with
  | .running => (host, proc)
  | .overloaded => gwProcCheckEnable curTs host proc
  | .killed => (host, proc)
  | .diedWaitForPid =>
    let result := gwProcWaitpid curTs waited host proc
    let pair := if result.1 then result.2 else gwProcCheckEnable curTs result.2.1 result.2.2
    if pair.2.state ≠ .died then pair else restartDead curTs spawned pair.1 pair.2
  | .died => restartDead curTs spawned host proc

/-- A loop over a list of processes of one host. The bodies leave the list as it is. -/
def overProcs (host : Nat) (change : Nat → GwHost → GwProc → GwHost × GwProc)
    (procs : List Nat) : Server :=
  procs.foldl (fun srv proc => onProc srv host proc (change proc)) srv

def gwRestartDeadProcs (oracle : Oracle) (host : Nat) : Server :=
  overProcs srv host (fun proc => restartProc srv.curTs (oracle.waited proc) (oracle.spawned proc))
    (srv.hosts host).first

def intMax : Int := 2 ^ 31 - 1

def ulongMax : Nat := 2 ^ 64 - 1

/-- The loop of the methods `hash` and `sticky`: the largest weight among the active hosts. -/
def heaviest (active : Nat → Bool) (weight : Nat → Nat) (used : Nat) : Option Nat :=
  ((List.range used).foldl (fun best k =>
    if active k ∧ (best.1 < weight k ∨ best.1 = ulongMax) then (weight k, some k) else best)
    (ulongMax, none)).2

/-- The loop of the method `least-connection`. -/
def leastLoad (active : Nat → Bool) (load : Nat → Int) (used : Nat) : Option Nat :=
  ((List.range used).foldl (fun best k =>
    if active k ∧ load k < best.1 then (load k, some k) else best) (intMax, none)).2

/-- The method `round-robin`: from the one behind the last used one to the end, and then from
the start to the last used one. -/
def nextActive (active : Nat → Bool) (lastUsedNdx : Int) (used : Nat) : Option Nat :=
  let ndx := (lastUsedNdx + 1).toNat
  (List.range' ndx (used - ndx) ++ List.range ndx).find? active

/-- The choice of `gw_host_get` among the hosts that are up. -/
def chooseNdx (extension : GwExtension) (balance : Balance) (weight : Nat → Nat) : Option Nat :=
  let active := fun k => (srv.hosts (extension.hosts.getD k 0)).activeProcs ≠ 0
  let used := extension.hosts.length
  if used ≤ 1 then
    if used = 1 ∧ (srv.hosts (extension.hosts.getD 0 0)).activeProcs > 0 then some 0 else none
  else
    match balance with
    | .hash => heaviest active weight used
    | .sticky => heaviest active weight used
    | .leastConnection =>
      leastLoad active (fun k => (srv.hosts (extension.hosts.getD k 0)).load) used
    | .roundRobin => nextActive active extension.lastUsedNdx used

/-- The special case of `gw_host_get` for hosts that run no process yet. -/
def spawnFirst (oracle : Oracle) : List Nat → Server → Server × Option Nat
  | [], srv => (srv, none)
  | host :: hosts, srv =>
    if (srv.hosts host).minProcs = 0 ∧ (srv.hosts host).numProcs = 0 ∧ (srv.hosts host).binPath then
      let srv := gwProcSpawn srv host (oracle.spawn host)
      if (srv.hosts host).numProcs ≠ 0 then (srv, some host) else spawnFirst oracle hosts srv
    else spawnFirst oracle hosts srv

/-- The method `round-robin` saves its choice for the next round. -/
def saveNdx (ext : Nat) (balance : Balance) (ndx : Option Nat) : Server :=
  if 1 < (srv.exts ext).hosts.length ∧ balance = .roundRobin then
    let record := { srv.exts ext with lastUsedNdx := (ndx.map Int.ofNat).getD (-1) }
    { srv with exts := update srv.exts ext record }
  else srv

/-- `weight` gives the checksums of the methods `hash` and `sticky`. -/
def gwHostGet (oracle : Oracle) (ext : Nat) (balance : Balance) (weight : Nat → Nat) :
    Server × Option Nat :=
  let extension := srv.exts ext
  let ndx := chooseNdx srv extension balance weight
  let srv := saveNdx srv ext balance ndx
  match ndx with
  | some k => (srv, some (extension.hosts.getD k 0))
  | none => if srv.maxWorker = 0 then spawnFirst oracle extension.hosts srv else (srv, none)

def setCtx (con : Nat) (slot : Option GwHandlerCtx) : Server :=
  { srv with conns := srv.conns.set con slot }

/-- The context is written back without host and process. -/
def gwBackendClose (con : Nat) (hctx : GwHandlerCtx) : Server :=
  match hctx.host with
  | none => setCtx srv con (some { hctx with fd := false })
  | some host =>
    match hctx.proc with
    | some proc =>
      setCtx (gwHostReset (gwProcLoadDec srv proc) host) con
        (some { hctx with fd := false, proc := none, host := none })
    | none => setCtx (gwHostReset srv host) con (some { hctx with fd := false, host := none })

def gwConnectionClose (con : Nat) (hctx : GwHandlerCtx) : Server :=
  setCtx (gwBackendClose srv con hctx) con none

/-- `none` where the context has no extension, which the code does not check. -/
def gwReconnect (oracle : Oracle) (weight : Nat → Nat) (con : Nat) (hctx : GwHandlerCtx) :
    Option (Server × HandlerT) :=
  let srv := gwBackendClose srv con hctx
  hctx.ext.map fun ext =>
    match gwHostGet srv oracle ext hctx.balance weight with
    | (srv, none) =>
      (setCtx srv con (some { hctx with fd := false, proc := none, host := none }), .finished)
    | (srv, some host) =>
      (setCtx (gwHostAssign srv host) con
        (some { hctx with fd := false, proc := none, host := some host, state := .init }),
        .comeback)

/-- The first running process, or one behind it with a lower load. -/
def pickProc (first : List Nat) : Option Nat :=
  match first.dropWhile fun proc => (srv.procs proc).state ≠ .running with
  | [] => none
  | proc :: rest =>
    some (rest.foldl (fun best proc =>
      if (srv.procs proc).state = .running ∧ (srv.procs proc).load < (srv.procs best).load then proc
      else best) proc)

inductive SocketResult where
  | opened
  | noFd
  | failed

inductive ConnectResult where
  | inProgress
  | failed
  | established

/-- `noFd` is a socket that fails with `EMFILE` or `EINTR`. -/
structure WriteOutcome where
  socket : SocketResult := .opened
  connect : ConnectResult := .established
  socketError : Bool := false
  createEnv : HandlerT := .goOn
  writeFails : Bool := false
  allWritten : Bool := false

section

variable (outcome : WriteOutcome)

/-- From `GW_STATE_WRITE` on. -/
def writeQueue (con : Nat) (hctx : GwHandlerCtx) : Server × HandlerT :=
  if outcome.writeFails then (setCtx srv con (some hctx), .error)
  else if outcome.allWritten then (setCtx srv con (some { hctx with state := .read }), .waitForEvent)
  else (setCtx srv con (some hctx), .waitForEvent)

/-- From `GW_STATE_PREPARE_WRITE` on. -/
def prepareWrite (con : Nat) (hctx : GwHandlerCtx) : Server × HandlerT :=
  if outcome.createEnv ≠ .goOn then (setCtx srv con (some hctx), outcome.createEnv)
  else writeQueue srv outcome con { hctx with state := .write }

/-- From `gw_proc_connect_success` on. -/
def connected (host proc con : Nat) (hctx : GwHandlerCtx) :
    Server × HandlerT :=
  prepareWrite (onProc srv host proc (gwProcConnectSuccess srv.curTs)) outcome con
    { hctx with state := .prepareWrite }

/-- The part of `GW_STATE_INIT` behind the choice of a process. -/
def openSocket (host proc con : Nat) (hctx : GwHandlerCtx) :
    Server × HandlerT :=
  let srv := gwProcLoadInc srv proc
  let hctx := { hctx with proc := some proc }
  match outcome.socket with
  | .noFd => (setCtx srv con (some hctx), .waitForFd)
  | .failed => (setCtx srv con (some hctx), .error)
  | .opened =>
    let hctx := { hctx with
      fd := true
      pid := if (srv.procs proc).isLocal then (srv.procs proc).pid else hctx.pid }
    match outcome.connect with
    | .inProgress => (setCtx srv con (some { hctx with state := .connectDelayed }), .waitForEvent)
    | .failed =>
      (setCtx (onProc srv host proc (gwProcConnectError srv.curTs hctx.pid)) con (some hctx), .error)
    | .established => connected srv outcome host proc con { hctx with reconnects := 0 }

/-- `none` where the code would use a missing host or process. -/
def gwWriteRequest (con : Nat) (hctx : GwHandlerCtx) :
    Option (Server × HandlerT) :=
  match hctx.state with
  | .init =>
    match hctx.host with
    | none => none
    | some host =>
      match pickProc srv (srv.hosts host).first with
      | none => some (setCtx srv con (some { hctx with proc := none }), .error)
      | some proc => some (openSocket srv outcome host proc con hctx)
  | .connectDelayed =>
    match hctx.host, hctx.proc with
    | some host, some proc =>
      if outcome.socketError then
        some (setCtx (onProc srv host proc (gwProcConnectError srv.curTs hctx.pid)) con
          (some hctx), .error)
      else some (connected srv outcome host proc con hctx)
    | _, _ => none
  | .prepareWrite => some (prepareWrite srv outcome con hctx)
  | .write => some (writeQueue srv outcome con hctx)
  | .read => some (setCtx srv con (some hctx), .waitForEvent)

end

def gwWriteError (oracle : Oracle) (weight : Nat → Nat) (con : Nat) (hctx : GwHandlerCtx) :
    Option (Server × HandlerT) :=
  if hctx.state = .init ∨ hctx.state = .connectDelayed then
    match hctx.host with
    | none => none
    | some host =>
      let srv := if srv.maxWorker = 0 then gwRestartDeadProcs srv oracle host else srv
      if hctx.reconnects < 5 then
        gwReconnect srv oracle weight con { hctx with reconnects := hctx.reconnects + 1 }
      else some (gwConnectionClose srv con hctx, .finished)
  else some (gwConnectionClose srv con hctx, .finished)

/-- How a read of the response ends. `ok` is a status of 200 or none, `retry` that nothing has
been sent either way. -/
inductive ReadResult where
  | more
  | finished (ok : Bool)
  | error (retry : Bool)

/-- The part of `gw_recv_response` that looks for a child that has ended. -/
def reapChild (oracle : Oracle) (host proc : Nat) (hctx : GwHandlerCtx) : Server :=
  let record := srv.procs proc
  if record.isLocal ∧ record.load = 1 ∧ record.pid = hctx.pid ∧ record.state ≠ .died ∧
      srv.maxWorker = 0 ∧ record.disabledUntil < srv.curTs then
    onProc srv host proc fun host record =>
      let result := gwProcWaitpid srv.curTs (oracle.waited proc) host record
      if result.1 then
        (gwSpawnConnection srv.curTs (oracle.spawned proc) result.2.1 result.2.2).2
      else result.2
  else srv

def gwRecvResponse (oracle : Oracle) (weight : Nat → Nat) (result : ReadResult) (con : Nat)
    (hctx : GwHandlerCtx) : Option (Server × HandlerT) :=
  match hctx.host, hctx.proc with
  | some host, some proc =>
    match result with
    | .more => some (srv, .goOn)
    | .finished ok =>
      if hctx.authorizer ∧ ok then
        let srv := onProc srv host proc fun host proc => (host, { proc with lastUsed := srv.curTs })
        -- `handler_ctx_clear`, which keeps the configuration and the pid
        some (setCtx (gwBackendClose srv con hctx) con
          (some { pid := hctx.pid, balance := hctx.balance }), .comeback)
      else some (gwConnectionClose srv con hctx, .finished)
    | .error retry =>
      let srv := reapChild srv oracle host proc hctx
      if retry ∧ hctx.reconnects < 5 then
        gwReconnect srv oracle weight con { hctx with reconnects := hctx.reconnects + 1 }
      else some (gwConnectionClose srv con hctx, .finished)
  | _, _ => none

/-- The end of `gw_check_extension`, with the extension found. It is called for a connection
that no module handles: it has no context, or one that the authorizer has left without a
host. -/
def gwCheckExtension (oracle : Oracle) (weight : Nat → Nat) (balance : Balance) (authorizer : Bool)
    (ext con : Nat) (old : GwHandlerCtx) : Server × HandlerT :=
  match gwHostGet srv oracle ext balance weight with
  | (srv, none) => (srv, .finished)
  | (srv, some host) =>
    (setCtx (gwHostAssign srv host) con
      (some { old with
        host := some host
        proc := none
        ext := some ext
        authorizer := authorizer
        balance := balance }), .goOn)

/-- The adaptive part of `gw_handle_trigger_host`: one more child when all are overloaded. -/
def growProcs (oracle : Oracle) (host : Nat) : Server :=
  let record := srv.hosts host
  if (record.first.all fun proc => (srv.procs proc).load > record.maxLoadPerProc) ∧
      record.numProcs ≠ 0 ∧ record.numProcs < record.maxProcs then
    gwProcSpawn srv host (oracle.spawn host)
  else srv

/-- One child that has been idle for long is ended. -/
def shrinkProcs (host : Nat) : Server :=
  let record := srv.hosts host
  if record.numProcs ≤ record.minProcs then srv
  else
    match record.first.find? fun proc =>
      (srv.procs proc).load = 0 ∧ 0 < (srv.procs proc).pid ∧
        (srv.procs proc).lastUsed < srv.curTs - record.idleTimeout with
    | some proc => gwProcKill srv host proc
    | none => srv

def waitProcs (oracle : Oracle) (host : Nat) (procs : List Nat) : Server :=
  overProcs srv host (fun proc record process =>
    (gwProcWaitpid srv.curTs (oracle.waited proc) record process).2) procs

def gwHandleTriggerHost (oracle : Oracle) (host : Nat) : Server :=
  let srv := waitProcs srv oracle host (srv.hosts host).first
  let srv := gwRestartDeadProcs srv oracle host
  if (srv.hosts host).minProcs = (srv.hosts host).maxProcs then srv
  else if !(srv.hosts host).binPath then srv
  else
    let srv := growProcs srv oracle host
    let srv := shrinkProcs srv host
    waitProcs srv oracle host (srv.hosts host).unusedProcs

/-- The first process in a list that is the child `pid`. -/
def childOf (pid : Int) (procs : List Nat) : Option Nat :=
  procs.find? fun proc => (srv.procs proc).isLocal ∧ (srv.procs proc).pid = pid

def childEnded (curTs : Int) (spawned : Spawned) (host : GwHost) (proc : GwProc) :
    GwHost × GwProc :=
  let pair := gwProcSetState host proc .died
  let proc := { pair.2 with pid := 0 }
  if proc.disabledUntil < curTs then
    (gwSpawnConnection curTs spawned pair.1
      { proc with disabledUntil := if proc.state ≠ .killed then curTs else proc.disabledUntil }).2
  else (pair.1, proc)

def unusedEnded (curTs : Int) (host : GwHost) (proc : GwProc) : GwHost × GwProc :=
  let pair := gwProcSetState host
    { proc with disabledUntil := if proc.state ≠ .killed then curTs else proc.disabledUntil } .died
  (pair.1, { pair.2 with pid := 0 })

def waitpidHosts (oracle : Oracle) (pid : Int) : List Nat → Server → Server
  | [], srv => srv
  | host :: hosts, srv =>
    match childOf srv pid (srv.hosts host).first with
    | some proc => onProc srv host proc (childEnded srv.curTs (oracle.spawned proc))
    | none =>
      match childOf srv pid (srv.hosts host).unusedProcs with
      | some proc => onProc srv host proc (unusedEnded srv.curTs)
      | none => waitpidHosts oracle pid hosts srv

def gwHandleWaitpidCb (oracle : Oracle) (pid : Int) : Server :=
  waitpidHosts oracle pid srv.allHosts srv

/-- One call into the module. `writeRequest` and `writeError` are the two halves of
`gw_send_request`; the first of the rest is the choice of a handler for a new request, and a
connection is closed by an event or by a reset. -/
inductive Call where
  | accept
  | clock (curTs : Int)
  | checkExtension (oracle : Oracle) (weight : Nat → Nat) (balance : Balance) (authorizer : Bool)
      (ext con : Nat)
  | writeRequest (outcome : WriteOutcome) (con : Nat)
  | writeError (oracle : Oracle) (weight : Nat → Nat) (con : Nat)
  | recvResponse (oracle : Oracle) (weight : Nat → Nat) (result : ReadResult) (con : Nat)
  | connectionClose (con : Nat)
  | triggerHost (oracle : Oracle) (host : Nat)
  | waitpidCb (oracle : Oracle) (pid : Int)

def onCtx (con : Nat) (call : GwHandlerCtx → Option Server) : Option Server :=
  match srv.conns[con]? with
  | some (some hctx) => call hctx
  | _ => none

/-- After `HANDLER_ERROR` of `gw_write_request` nothing comes before `gw_write_error`. -/
def afterWrite (con : Nat) (result : Server × HandlerT) : Server :=
  if result.2 = .error then { result.1 with failed := some con } else result.1

/-- `none` is a call that is not made in this state. -/
def step (call : Call) : Option Server :=
  match srv.failed with
  | some con =>
    match call with
    | .writeError oracle weight con' =>
      if con' = con then
        onCtx srv con fun hctx =>
          (gwWriteError { srv with failed := none } oracle weight con hctx).map Prod.fst
      else none
    | _ => none
  | none =>
    match call with
    | .accept => some { srv with conns := srv.conns ++ [none] }
    | .clock curTs => some { srv with curTs := curTs }
    | .checkExtension oracle weight balance authorizer ext con =>
      match srv.conns[con]? with
      | some none =>
        some (gwCheckExtension srv oracle weight balance authorizer ext con {}).1
      | some (some hctx) =>
        if hctx.host = none then
          some (gwCheckExtension srv oracle weight balance authorizer ext con hctx).1
        else none
      | none => none
    | .writeRequest outcome con =>
      onCtx srv con fun hctx =>
        (gwWriteRequest srv outcome con hctx).map (afterWrite con)
    | .writeError _ _ _ => none
    | .recvResponse oracle weight result con =>
      onCtx srv con fun hctx =>
        (gwRecvResponse srv oracle weight result con hctx).map Prod.fst
    | .connectionClose con => onCtx srv con fun hctx => some (gwConnectionClose srv con hctx)
    | .triggerHost oracle host => some (gwHandleTriggerHost srv oracle host)
    | .waitpidCb oracle pid => some (gwHandleWaitpidCb srv oracle pid)

def run (srv : Server) : List Call → Option Server
  | [] => some srv
  | call :: calls => (step srv call).bind fun srv => run srv calls

end ServerCore.LighttpdGwBackend
