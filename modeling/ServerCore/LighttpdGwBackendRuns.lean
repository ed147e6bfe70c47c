import ServerCore.LighttpdGwBackendLoad

/-!
# The load over whole runs

A step adds to what is lost exactly when `gw_write_request` is called in
`GW_STATE_INIT` for a context with a process, and what is lost is never found
again: a process with load stays in the list of its host.
-/

namespace ServerCore.LighttpdGwBackendRuns

open HolderCount LighttpdGwBackend LighttpdGwBackendLoad List Option

variable {old : Option GwHandlerCtx}

variable {result : Server × HandlerT} {new : GwHandlerCtx} {weight : Nat → Nat} {oracle : Oracle}
variable {host proc con : Nat} {hctx : GwHandlerCtx} {srv : Server}

section Slots

variable {srv after : Server} {lost : Nat → Nat} {con : Nat}

structure SameProcs (srv after : Server) : Prop where
  states : ∀ proc, (after.procs proc).state = (srv.procs proc).state
  active : ∀ host, (after.hosts host).activeProcs = (srv.hosts host).activeProcs
  first : ∀ host, (after.hosts host).first = (srv.hosts host).first
  unused : ∀ host, (after.hosts host).unusedProcs = (srv.hosts host).unusedProcs
  next : after.nextProc = srv.nextProc

theorem slot_books (books : Books srv lost) {old new : Option GwHandlerCtx} {extra : Nat → Nat}
    (isOld : srv.conns[con]? = some old) (conns : after.conns = srv.conns.set con new)
    (same : SameProcs srv after) (loads : ∀ proc, (after.procs proc).load = (srv.procs proc).load -
      one (procOf old = some proc) + one (procOf new = some proc) + extra proc)
    (hostLoads : ∀ host, (after.hosts host).load = (srv.hosts host).load -
      one (hostOf old = some host) + one (hostOf new = some host)) (bound : ∀ proc, procOf new = some proc →
      ∃ host, hostOf new = some host ∧ proc ∈ (srv.hosts host).first)
    (charged : ∀ proc, extra proc ≠ 0 → procOf old = some proc) :
    Books after fun proc => lost proc + extra proc := by
  have oldMem : old ∈ srv.conns := mem_of_getElem? isOld
  have allProcs : ∀ host, procsOf (after.hosts host) = procsOf (srv.hosts host) := by
    intro host
    unfold procsOf
    rw [same.first, same.unused]
  have runs : ∀ proc, Running after proc ↔ Running srv proc := by
    intro proc
    unfold Running
    rw [same.states]
  constructor
  · intro proc
    rw [loads, conns, holders_set isOld, books.loads proc]
    push_cast
    omega
  · intro host
    rw [hostLoads, conns, holders_set isOld, books.hostLoads host]
  · intro host
    rw [same.active, allProcs, books.active host]
    exact (marked_congr fun proc _ => runs proc).symm
  · intro host
    rw [allProcs]
    exact books.once host
  · intro host host'
    rw [allProcs, allProcs]
    exact books.apart host host'
  · intro host
    rw [allProcs, same.next]
    exact books.known host
  · intro host proc mem
    rw [same.unused] at mem
    rw [runs]
    exact books.stopped host proc mem
  · intro proc isBusy
    have owned : ∃ host, proc ∈ (srv.hosts host).first := by
      by_cases wasBusy : (srv.procs proc).load = 0
      · by_cases isNew : procOf new = some proc
        · rcases bound proc isNew with ⟨host, -, mem⟩
          exact ⟨host, mem⟩
        · by_cases isCharged : extra proc = 0
          · have stays := loads proc
            have counted := books.loads proc
            have notOld : procOf old ≠ some proc := by
              apply not_held_of_zero _ old oldMem
              have oldNonneg := holders_nonneg procOf srv.conns proc
              omega
            rw [one_false notOld, one_false isNew, wasBusy, isCharged] at stays
            exact absurd stays isBusy
          · rcases books.bound old oldMem proc (charged proc isCharged) with ⟨host, -, mem⟩
            exact ⟨host, mem⟩
      · exact books.busy proc wasBusy
    rcases owned with ⟨host, mem⟩
    exact ⟨host, same.first host ▸ mem⟩
  · intro slot mem proc isProc
    have owned : ∃ host, hostOf slot = some host ∧ proc ∈ (srv.hosts host).first := by
      rw [conns] at mem
      rcases mem_or_eq_of_mem_set mem with before | rfl
      · exact books.bound slot before proc isProc
      · exact bound proc isProc
    rcases owned with ⟨host, isHost, inFirst⟩
    exact ⟨host, isHost, same.first host ▸ inFirst⟩

variable {hctx : GwHandlerCtx}

section

variable (books : Books srv lost)
include books

theorem set_ctx_books (isCtx : srv.conns[con]? = some (some hctx))
    (proc : new.proc = hctx.proc) (host : new.host = hctx.host) :
    Books (setCtx srv con (some new)) lost := by
  have sameProc : procOf (some new) = procOf (some hctx) := proc
  have sameHost : hostOf (some new) = hostOf (some hctx) := host
  apply @slot_books srv _ lost con books (some hctx) (some new) (fun _ => 0) isCtx rfl
  · exact ⟨fun _ => rfl, fun _ => rfl, fun _ => rfl, fun _ => rfl, rfl⟩
  · intro key
    rw [sameProc]
    simp [setCtx]
  · intro key
    rw [sameHost]
    simp [setCtx]
  · rw [sameProc, sameHost]
    exact books.bound (some hctx) (mem_of_getElem? isCtx)
  · exact fun _ some_ => absurd rfl some_

theorem assign_books (isOld : srv.conns[con]? = some old)
    (noProc : procOf old = none) (noHost : hostOf old = none) (proc : new.proc = none)
    (isHost : new.host = some host) : Books (setCtx (gwHostAssign srv host) con (some new)) lost := by
  have newProc : procOf (some new) = none := proc
  have newHost : hostOf (some new) = some host := isHost
  apply @slot_books srv _ lost con books old (some new) (fun _ => 0) isOld rfl
  · constructor
    · exact fun _ => rfl
    · exact update_same GwHost.activeProcs rfl
    · exact update_same GwHost.first rfl
    · exact update_same GwHost.unusedProcs rfl
    · rfl
  · intro key
    rw [noProc, newProc]
    simp [setCtx, gwHostAssign, onHost]
  · intro key
    rw [noHost, newHost]
    by_cases isKey : key = host
    · simp [setCtx, gwHostAssign, onHost, isKey]
    · simp [setCtx, gwHostAssign, onHost, isKey, Ne.symm isKey]
  · rw [newProc]
    simp
  · exact fun _ some_ => absurd rfl some_

theorem backend_close_books (isCtx : srv.conns[con]? = some (some hctx)) :
    Books (gwBackendClose srv con hctx) lost ∧
      ∃ closed : GwHandlerCtx, closed.proc = none ∧ closed.host = none ∧
        (gwBackendClose srv con hctx).conns[con]? = some (some closed) := by
  have mem : some hctx ∈ srv.conns := mem_of_getElem? isCtx
  have inside : con < srv.conns.length := by
    rw [getElem?_eq_some_iff] at isCtx
    exact isCtx.1
  have noProc : hctx.host = none → hctx.proc = none := by
    intro noHost
    by_contra isProc
    rcases ne_none_iff_exists'.mp isProc with ⟨proc, isSome⟩
    rcases books.bound (some hctx) mem proc isSome with ⟨host, isHost, -⟩
    cases noHost.symm.trans isHost
  have slot : ∀ srv' : Server, srv'.conns = srv.conns → ∀ new : Option GwHandlerCtx,
      (setCtx srv' con new).conns[con]? = some new := by
    intro srv' isConns new
    change (srv'.conns.set con new)[con]? = some new
    rw [getElem?_set_self (by rw [isConns]; exact inside)]
  unfold gwBackendClose
  cases isHost : hctx.host with
  | none =>
    apply And.intro
    · exact set_ctx_books books isCtx rfl isHost.symm
    · exact ⟨{ hctx with fd := false, host := none }, noProc isHost, rfl, slot srv rfl _⟩
  | some host =>
    have oldHost : hostOf (some hctx) = some host := isHost
    cases isProc : hctx.proc with
    | none =>
      have oldProc : procOf (some hctx) = none := isProc
      apply And.intro _ ⟨{ hctx with fd := false, host := none, proc := none }, rfl, rfl,
        slot (gwHostReset srv host) rfl _⟩
      apply @slot_books srv _ lost con books (some hctx)
        (some { hctx with fd := false, host := none, proc := none }) (fun _ => 0) isCtx rfl
      · exact ⟨fun _ => rfl, update_same GwHost.activeProcs rfl, update_same GwHost.first rfl,
          update_same GwHost.unusedProcs rfl, rfl⟩
      · intro key
        have newProc : procOf (some { hctx with fd := false, host := none, proc := none }) = none :=
          rfl
        rw [oldProc, newProc]
        simp [setCtx, gwHostReset, onHost]
      · intro key
        have newHost : hostOf (some { hctx with fd := false, host := none, proc := none }) = none :=
          rfl
        rw [oldHost, newHost]
        by_cases isKey : key = host
        · simp [setCtx, gwHostReset, onHost, isKey]
        · simp [setCtx, gwHostReset, onHost, isKey, Ne.symm isKey]
      · simp [procOf]
      · exact fun _ some_ => absurd rfl some_
    | some proc =>
      have oldProc : procOf (some hctx) = some proc := isProc
      apply And.intro _ ⟨_, rfl, rfl, slot (gwHostReset (gwProcLoadDec srv proc) host) rfl _⟩
      apply @slot_books srv _ lost con books (some hctx)
        (some { hctx with fd := false, proc := none, host := none }) (fun _ => 0) isCtx rfl
      · exact ⟨update_same GwProc.state rfl, update_same GwHost.activeProcs rfl,
          update_same GwHost.first rfl, update_same GwHost.unusedProcs rfl, rfl⟩
      · intro key
        have newProc : procOf (some { hctx with fd := false, proc := none, host := none }) = none :=
          rfl
        rw [oldProc, newProc]
        by_cases isKey : key = proc
        · simp [setCtx, gwHostReset, onHost, gwProcLoadDec, isKey]
        · simp [setCtx, gwHostReset, onHost, gwProcLoadDec, isKey, Ne.symm isKey]
      · intro key
        have newHost : hostOf (some { hctx with fd := false, proc := none, host := none }) = none :=
          rfl
        rw [oldHost, newHost]
        by_cases isKey : key = host
        · simp [setCtx, gwHostReset, onHost, gwProcLoadDec, isKey]
        · simp [setCtx, gwHostReset, onHost, gwProcLoadDec, isKey, Ne.symm isKey]
      · simp [procOf]
      · exact fun _ some_ => absurd rfl some_

theorem clear_books {new : Option GwHandlerCtx}
    (isOld : srv.conns[con]? = some old) (noProc : procOf old = none) (noHost : hostOf old = none)
    (noProc' : procOf new = none) (noHost' : hostOf new = none) : Books (setCtx srv con new) lost := by
  apply @slot_books srv _ lost con books old new (fun _ => 0) isOld rfl
  · exact ⟨fun _ => rfl, fun _ => rfl, fun _ => rfl, fun _ => rfl, rfl⟩
  · intro key
    rw [noProc, noProc']
    simp [setCtx]
  · intro key
    rw [noHost, noHost']
    simp [setCtx]
  · intro key impossible
    cases noProc'.symm.trans impossible
  · exact fun _ some_ => absurd rfl some_

theorem connection_close_books (isCtx : srv.conns[con]? = some (some hctx)) :
    Books (gwConnectionClose srv con hctx) lost := by
  rcases backend_close_books books isCtx with ⟨closedBooks, closed, noProc, noHost, isClosed⟩
  exact clear_books closedBooks isClosed noProc noHost rfl rfl

theorem reconnect_books (isCtx : srv.conns[con]? = some (some hctx))
        (done : gwReconnect srv oracle weight con hctx = some result) : Books result.1 lost := by
  rcases backend_close_books books isCtx with ⟨closedBooks, closed, noProc, noHost, isClosed⟩
  rcases map_eq_some_iff.mp done with ⟨ext, -, isResult⟩
  have got := @host_get_upkeep (gwBackendClose srv con hctx) oracle ext hctx.balance weight
  have gotBooks := got.books lost closedBooks
  have gotCtx := got.conns ▸ isClosed
  generalize gwHostGet (gwBackendClose srv con hctx) oracle ext hctx.balance weight = choice
    at isResult gotBooks gotCtx
  rcases choice with ⟨chosen, host⟩
  cases host with
  | none =>
    rw [← isResult]
    exact clear_books gotBooks gotCtx noProc noHost rfl rfl
  | some host =>
    rw [← isResult]
    exact assign_books gotBooks gotCtx noProc noHost rfl rfl

theorem check_extension_books (isOld : srv.conns[con]? = some old)
    (noProc : procOf old = none) (noHost : hostOf old = none) {oracle : Oracle} {weight : Nat → Nat}
    {balance : Balance} {authorizer : Bool} {ext : Nat} :
    Books (gwCheckExtension srv oracle weight balance authorizer ext con hctx).1 lost := by
  have got := @host_get_upkeep srv oracle ext balance weight
  have gotBooks := got.books lost books
  have gotOld := got.conns.symm ▸ isOld
  unfold gwCheckExtension
  generalize gwHostGet srv oracle ext balance weight = choice at gotBooks gotOld
  rcases choice with ⟨chosen, host⟩
  cases host with
  | none => exact gotBooks
  | some host => exact assign_books gotBooks gotOld noProc noHost rfl rfl

end

def forgotten (hctx : GwHandlerCtx) (proc : Nat) : Nat := if hctx.proc = some proc then 1 else 0

theorem forgotten_eq (hctx : GwHandlerCtx) (proc : Nat) :
    (forgotten hctx proc : Int) = one (procOf (some hctx) = some proc) := by
  unfold forgotten one
  split_ifs with isProc otherwise otherwise
  · rfl
  · exact absurd isProc otherwise
  · exact absurd otherwise isProc
  · rfl

theorem take_books (books : Books srv lost) (isCtx : srv.conns[con]? = some (some hctx))
    (isHost : hctx.host = some host) (mem : proc ∈ (srv.hosts host).first)
    (newProc : new.proc = some proc) (newHost : new.host = hctx.host) :
    Books (setCtx (gwProcLoadInc srv proc) con (some new)) fun key => lost key + forgotten hctx key := by
  have isNew : procOf (some new) = some proc := newProc
  have sameHost : hostOf (some new) = hostOf (some hctx) := newHost
  apply @slot_books srv _ lost con books (some hctx) (some new) (forgotten hctx) isCtx rfl
  · exact ⟨update_same GwProc.state rfl, fun _ => rfl, fun _ => rfl, fun _ => rfl, rfl⟩
  · intro key
    rw [forgotten_eq, isNew]
    by_cases isKey : key = proc
    · simp [setCtx, gwProcLoadInc, isKey]
      omega
    · simp [setCtx, gwProcLoadInc, isKey, Ne.symm isKey]
  · intro key
    rw [sameHost]
    simp [setCtx, gwProcLoadInc]
  · intro key isKey
    cases isNew.symm.trans isKey
    exact ⟨host, sameHost.trans isHost, mem⟩
  · intro key isCharged
    by_contra other
    exact isCharged (if_neg other)

theorem drop_books (books : Books srv lost) (isCtx : srv.conns[con]? = some (some hctx)) :
    Books (setCtx srv con (some { hctx with proc := none })) fun key =>
      lost key + forgotten hctx key := by
  have noProc : procOf (some { hctx with proc := none }) = none := rfl
  have sameHost : hostOf (some { hctx with proc := none }) = hostOf (some hctx) := rfl
  apply @slot_books srv _ lost con books (some hctx) (some { hctx with proc := none })
    (forgotten hctx) isCtx rfl
  · exact ⟨fun _ => rfl, fun _ => rfl, fun _ => rfl, fun _ => rfl, rfl⟩
  · intro key
    rw [forgotten_eq, noProc]
    simp [setCtx]
  · intro key
    rw [sameHost]
    simp [setCtx]
  · simp [procOf]
  · intro key isCharged
    by_contra other
    exact isCharged (if_neg other)

end Slots

section Writing

variable {srv : Server} {con : Nat} {outcome : WriteOutcome}

def HoldsSame (new hctx : GwHandlerCtx) : Prop := new.proc = hctx.proc ∧ new.host = hctx.host

section

variable (srv : Server) (outcome : WriteOutcome)

theorem write_queue_ctx (hctx : GwHandlerCtx) :
    ∃ new, HoldsSame new hctx ∧ (writeQueue srv outcome con hctx).1 = setCtx srv con (some new) := by
  unfold writeQueue
  split_ifs
  · exact ⟨hctx, ⟨rfl, rfl⟩, rfl⟩
  · exact ⟨{ hctx with state := .read }, ⟨rfl, rfl⟩, rfl⟩
  · exact ⟨hctx, ⟨rfl, rfl⟩, rfl⟩

theorem prepare_write_ctx (hctx : GwHandlerCtx) :
    ∃ new, HoldsSame new hctx ∧ (prepareWrite srv outcome con hctx).1 = setCtx srv con (some new) := by
  unfold prepareWrite
  split_ifs
  · exact ⟨hctx, ⟨rfl, rfl⟩, rfl⟩
  · exact write_queue_ctx srv outcome { hctx with state := .write }

theorem connected_ctx (hctx : GwHandlerCtx) :
    ∃ new, HoldsSame new hctx ∧ (connected srv outcome host proc con hctx).1 =
      onProc (setCtx srv con (some new)) host proc (gwProcConnectSuccess srv.curTs) :=
  prepare_write_ctx (onProc srv host proc (gwProcConnectSuccess srv.curTs)) outcome
    { hctx with state := .prepareWrite }

theorem open_socket_ctx : ∃ new : GwHandlerCtx, ∃ change : GwHost → GwProc → GwHost × GwProc,
      new.proc = some proc ∧ new.host = hctx.host ∧
      (∀ record process, Tracked record process (change record process)) ∧
      (openSocket srv outcome host proc con hctx).1 =
        onProc (setCtx (gwProcLoadInc srv proc) con (some new)) host proc change := by
  have same : ∀ server : Server, onProc server host proc Prod.mk = server := by
    intro server
    simp [onProc]
  unfold openSocket
  dsimp only
  cases outcome.socket with
  | noFd | failed =>
    exact ⟨{ hctx with proc := some proc }, Prod.mk, rfl, rfl, Tracked.refl, (same _).symm⟩
  | opened =>
    generalize (if ((gwProcLoadInc srv proc).procs proc).isLocal = true then
      ((gwProcLoadInc srv proc).procs proc).pid else hctx.pid) = pid
    cases outcome.connect with
    | inProgress =>
      exact ⟨{ hctx with proc := some proc, fd := true, pid := pid, state := .connectDelayed },
        Prod.mk, rfl, rfl, Tracked.refl, (same _).symm⟩
    | failed =>
      exact ⟨{ hctx with proc := some proc, fd := true, pid := pid },
        gwProcConnectError srv.curTs pid, rfl, rfl, connect_error_tracked srv.curTs pid, rfl⟩
    | established =>
      rcases connected_ctx (gwProcLoadInc srv proc) outcome
        { hctx with proc := some proc, fd := true, pid := pid, reconnects := 0 } with
        ⟨new, ⟨newProc, newHost⟩, isResult⟩
      exact ⟨new, _, newProc, newHost, connect_success_tracked srv.curTs, isResult⟩

end

theorem pick_proc_mem {first : List Nat} (picked : pickProc srv first = some proc) :
    proc ∈ first := by
  have kept : ∀ (rest : List Nat) (best : Nat), (rest.foldl (fun best proc =>
      if (srv.procs proc).state = .running ∧ (srv.procs proc).load < (srv.procs best).load then proc
      else best) best) ∈ best :: rest := by
    intro rest
    induction rest with
    | nil => exact fun best => mem_singleton.mpr rfl
    | cons next rest ih =>
      intro best
      rw [foldl_cons]
      have inRest := ih (if (srv.procs next).state = .running ∧
        (srv.procs next).load < (srv.procs best).load then next else best)
      rcases mem_cons.mp inRest with isBest | behind
      · rw [isBest]
        split_ifs
        · exact mem_cons_of_mem _ mem_cons_self
        · exact mem_cons_self
      · exact mem_cons_of_mem _ (mem_cons_of_mem _ behind)
  unfold pickProc at picked
  have inside : ∀ key ∈ first.dropWhile (fun proc => (srv.procs proc).state ≠ .running), key ∈ first :=
    fun key mem => dropWhile_sublist _ |>.mem mem
  generalize first.dropWhile (fun proc => (srv.procs proc).state ≠ .running) = rest at picked inside
  cases rest with
  | nil => cases picked
  | cons best rest =>
    cases picked
    exact inside _ (kept rest best)

end Writing

section Steps

variable {srv after : Server} {lost : Nat → Nat} {con : Nat} {hctx : GwHandlerCtx}

/-- The process that `gw_write_request` forgets. -/
def forgets (hctx : GwHandlerCtx) : Option Nat := if hctx.state = .init then hctx.proc else none

theorem delayed_books (books : Books srv lost) (isCtx : srv.conns[con]? = some (some hctx))
    (isHost : hctx.host = some host) (isProc : hctx.proc = some proc)
    {change : GwHost → GwProc → GwHost × GwProc}
    (tracked : ∀ record process, Tracked record process (change record process))
    (same : HoldsSame new hctx) :
    Books (onProc (setCtx srv con (some new)) host proc change) lost := by
  have kept := set_ctx_books books isCtx same.1 same.2
  rcases books.bound (some hctx) (mem_of_getElem? isCtx) proc isProc with ⟨owner, isOwner, mem⟩
  cases isHost.symm.trans isOwner
  exact (@on_proc_upkeep change (setCtx srv con (some new)) host proc mem (tracked _ _)).books _ kept

theorem write_request_books (books : Books srv lost) (isCtx : srv.conns[con]? = some (some hctx))
    {outcome : WriteOutcome} (done : gwWriteRequest srv outcome con hctx = some result) :
    Books result.1 fun key => lost key + if forgets hctx = some key then 1 else 0 := by
  have nothing : hctx.state ≠ .init → (fun key => lost key +
      if forgets hctx = some key then 1 else 0) = lost := by
    intro notInit
    funext key
    rw [forgets, if_neg notInit]
    simp
  have keeps : ∀ {new : GwHandlerCtx}, HoldsSame new hctx → Books (setCtx srv con (some new)) lost :=
    fun same => set_ctx_books books isCtx same.1 same.2
  unfold gwWriteRequest at done
  cases isState : hctx.state with
  | init =>
    have takes : (fun key => lost key + if forgets hctx = some key then 1 else 0) =
        fun key => lost key + forgotten hctx key := by
      funext key
      rw [forgets, if_pos isState]
      rfl
    rw [takes]
    simp only [isState] at done
    cases isHost : hctx.host with
    | none =>
      rw [isHost] at done
      cases done
    | some host =>
      simp only [isHost] at done
      cases isPicked : pickProc srv (srv.hosts host).first with
      | none =>
        simp only [isPicked] at done
        cases done
        have dropped := drop_books books isCtx
        rw [isHost, isState] at dropped
        exact dropped
      | some proc =>
        simp only [isPicked] at done
        cases done
        have mem := pick_proc_mem isPicked
        rcases open_socket_ctx srv outcome with
          ⟨new, change, newProc, newHost, tracked, isResult⟩
        have taken := take_books books isCtx isHost mem newProc newHost
        rw [isResult]
        exact (@on_proc_upkeep change (setCtx (gwProcLoadInc srv proc) con (some new)) host
          proc mem (tracked _ _)).books _ taken
  | connectDelayed =>
    rw [nothing (by rw [isState]; exact nofun)]
    simp only [isState] at done
    cases isHost : hctx.host with
    | none =>
      rw [isHost] at done
      cases done
    | some host =>
      cases isProc : hctx.proc with
      | none =>
        rw [isHost, isProc] at done
        cases done
      | some proc =>
        rw [isHost, isProc] at done
        by_cases failed : outcome.socketError = true
        · simp only [if_pos failed] at done
          cases done
          exact delayed_books books isCtx isHost isProc (connect_error_tracked srv.curTs _)
            ⟨rfl, rfl⟩
        · simp only [if_neg failed] at done
          cases done
          rcases connected_ctx srv outcome hctx with ⟨new, same, isResult⟩
          rw [isResult]
          exact delayed_books books isCtx isHost isProc (connect_success_tracked srv.curTs) same
  | prepareWrite =>
    rw [nothing (by rw [isState]; exact nofun)]
    simp only [isState] at done
    cases done
    rcases prepare_write_ctx srv outcome hctx with ⟨new, same, isResult⟩
    rw [isResult]
    exact keeps same
  | write =>
    rw [nothing (by rw [isState]; exact nofun)]
    simp only [isState] at done
    cases done
    rcases write_queue_ctx srv outcome hctx with ⟨new, same, isResult⟩
    rw [isResult]
    exact keeps same
  | read =>
    rw [nothing (by rw [isState]; exact nofun)]
    simp only [isState] at done
    cases done
    exact keeps ⟨rfl, rfl⟩

theorem backend_close_set (srv : Server) (con : Nat) (slot : Option GwHandlerCtx) (hctx : GwHandlerCtx) :
    gwBackendClose (setCtx srv con slot) con hctx = gwBackendClose srv con hctx := by
  unfold gwBackendClose
  cases hctx.host with
  | none => simp [setCtx]
  | some host =>
    cases hctx.proc with
    | none => simp [setCtx, gwHostReset, onHost]
    | some proc => simp [setCtx, gwHostReset, onHost, gwProcLoadDec]

section

variable (books : Books srv lost) (isCtx : srv.conns[con]? = some (some hctx))
include books isCtx

theorem reconnect_again_books {again : GwHandlerCtx} (same : HoldsSame again hctx)
        (done : gwReconnect srv oracle weight con again = some result) : Books result.1 lost := by
  have inside : con < srv.conns.length := (List.getElem?_eq_some_iff.mp isCtx).1
  have counted : Books (setCtx srv con (some again)) lost :=
    set_ctx_books books isCtx same.1 same.2
  have isNew : (setCtx srv con (some again)).conns[con]? = some (some again) :=
    getElem?_set_self inside
  apply reconnect_books counted isNew
  unfold gwReconnect
  rw [backend_close_set]
  exact done

theorem write_error_books
    (done : gwWriteError srv oracle weight con hctx = some result) : Books result.1 lost := by
  unfold gwWriteError at done
  by_cases early : hctx.state = .init ∨ hctx.state = .connectDelayed
  · rw [if_pos early] at done
    cases isHost : hctx.host with
    | none =>
      rw [isHost] at done
      cases done
    | some host =>
      rw [isHost] at done
      dsimp only at done
      have restarted : Upkeep srv
          (if srv.maxWorker = 0 then gwRestartDeadProcs srv oracle host else srv) := by
        split_ifs
        · exact restart_dead_procs_upkeep oracle host
        · exact Upkeep.refl srv
      generalize (if srv.maxWorker = 0 then gwRestartDeadProcs srv oracle host else srv) = between
        at restarted done
      have betweenBooks := restarted.books lost books
      have betweenCtx := restarted.conns.symm ▸ isCtx
      by_cases again : hctx.reconnects < 5
      · rw [if_pos again] at done
        have same : HoldsSame
            { hctx with host := some host, reconnects := hctx.reconnects + 1 } hctx :=
          ⟨rfl, isHost.symm⟩
        exact reconnect_again_books betweenBooks betweenCtx same done
      · rw [if_neg again] at done
        cases done
        exact connection_close_books betweenBooks betweenCtx
  · rw [if_neg early] at done
    cases done
    exact connection_close_books books isCtx

theorem recv_response_books {read : ReadResult}
    (done : gwRecvResponse srv oracle weight read con hctx = some result) : Books result.1 lost := by
  unfold gwRecvResponse at done
  cases isHost : hctx.host with
  | none =>
    rw [isHost] at done
    cases done
  | some host =>
    cases isProc : hctx.proc with
    | none =>
      rw [isHost, isProc] at done
      cases done
    | some proc =>
      rw [isHost, isProc] at done
      rcases books.bound (some hctx) (mem_of_getElem? isCtx) proc isProc with
        ⟨owner, isOwner, mem⟩
      cases isHost.symm.trans isOwner
      cases read with
      | more =>
        cases done
        exact books
      | finished ok =>
        dsimp only at done
        by_cases authorized : hctx.authorizer ∧ ok
        · rw [if_pos authorized] at done
          cases done
          have used := (@on_proc_upkeep
            (fun record process => (record, { process with lastUsed := srv.curTs })) srv host proc mem
            (connect_success_tracked srv.curTs _ _)).books lost books
          rcases backend_close_books used isCtx with
            ⟨closedBooks, closed, noProc, noHost, isClosed⟩
          exact clear_books closedBooks isClosed noProc noHost rfl rfl
        · rw [if_neg authorized] at done
          cases done
          exact connection_close_books books isCtx
      | error retry =>
        dsimp only at done
        have reaped := @reap_child_upkeep srv oracle host proc hctx mem
        generalize reapChild srv oracle host proc hctx = between at reaped done
        have betweenBooks := reaped.books lost books
        have betweenCtx := reaped.conns.symm ▸ isCtx
        by_cases again : retry ∧ hctx.reconnects < 5
        · rw [if_pos again] at done
          exact reconnect_again_books betweenBooks betweenCtx ⟨isProc.symm, isHost.symm⟩ done
        · rw [if_neg again] at done
          cases done
          exact connection_close_books betweenBooks betweenCtx

end

theorem other_fields_books (books : Books srv lost) {curTs : Int} (failed : Option Nat) :
    Books { srv with curTs := curTs, failed := failed } lost :=
  ⟨books.loads, books.hostLoads, books.active, books.once, books.apart, books.known, books.stopped,
    books.busy, books.bound⟩

theorem accept_books (books : Books srv lost) : Books { srv with conns := srv.conns ++ [none] } lost := by
  have more : ∀ (ref : Option GwHandlerCtx → Option Nat), ref none = none → ∀ key,
      holders ref (srv.conns ++ [none]) key = holders ref srv.conns key := by
    intro ref isNone key
    rw [holders_append, holders_cons, holders_nil, isNone]
    simp
  constructor
  · intro proc
    rw [more procOf rfl]
    exact books.loads proc
  · intro host
    rw [more hostOf rfl]
    exact books.hostLoads host
  · exact books.active
  · exact books.once
  · exact books.apart
  · exact books.known
  · exact books.stopped
  · exact books.busy
  · intro slot mem proc isProc
    rcases mem_append.mp mem with before | new
    · exact books.bound slot before proc isProc
    · rw [mem_singleton.mp new] at isProc
      cases isProc

/-- The process that a call forgets: the context waits for a descriptor, and is to write
again. -/
def forgetsProc (srv : Server) : Call → Option Nat
  | .writeRequest _ con =>
    match srv.conns[con]? with
    | some (some hctx) => forgets hctx
    | _ => none
  | _ => none

theorem on_ctx_some {call : GwHandlerCtx → Option Server} (done : onCtx srv con call = some after) :
    ∃ hctx, srv.conns[con]? = some (some hctx) ∧ call hctx = some after := by
  unfold onCtx at done
  split at done
  · exact ⟨_, by assumption, done⟩
  · cases done

theorem step_books (books : Books srv lost) {call : Call} (stepped : step srv call = some after) :
    Books after fun proc => lost proc + if forgetsProc srv call = some proc then 1 else 0 := by
  have nothing : forgetsProc srv call = none → (fun proc => lost proc +
      if forgetsProc srv call = some proc then 1 else 0) = lost := by
    intro isNone
    funext proc
    rw [isNone]
    simp
  unfold step at stepped
  cases isFailed : srv.failed with
  | some failed =>
    rw [isFailed] at stepped
    cases call with
    | writeError oracle weight con =>
      rw [nothing rfl]
      dsimp only at stepped
      split_ifs at stepped with isCon
      rcases on_ctx_some stepped with ⟨hctx, isCtx, done⟩
      rcases map_eq_some_iff.mp done with ⟨result, isResult, rfl⟩
      exact write_error_books (other_fields_books books none) isCtx isResult
    | _ => cases stepped
  | none =>
    rw [isFailed] at stepped
    cases call with
    | accept =>
      rw [nothing rfl]
      cases stepped
      exact accept_books (other_fields_books books none)
    | clock curTs =>
      rw [nothing rfl]
      cases stepped
      exact other_fields_books books none
    | checkExtension oracle weight balance authorizer ext con =>
      rw [nothing rfl]
      dsimp only at stepped
      split at stepped
      · rename_i isSlot
        cases stepped
        exact check_extension_books books isSlot rfl rfl
      · rename_i hctx isSlot
        split_ifs at stepped with noHost
        cases stepped
        have noProc : hctx.proc = none := by
          by_contra isProc
          rcases ne_none_iff_exists'.mp isProc with ⟨proc, isSome⟩
          rcases books.bound (some hctx) (mem_of_getElem? isSlot) proc isSome with
            ⟨host, isHost, -⟩
          cases noHost.symm.trans isHost
        exact check_extension_books books isSlot noProc noHost
      · cases stepped
    | writeRequest outcome con =>
      rcases on_ctx_some stepped with ⟨hctx, isCtx, done⟩
      rcases map_eq_some_iff.mp done with ⟨result, isResult, rfl⟩
      have written := write_request_books books isCtx isResult
      have isForgotten : forgetsProc srv (.writeRequest outcome con) = forgets hctx := by
        rw [forgetsProc, isCtx]
      rw [isForgotten]
      unfold afterWrite
      split_ifs
      · exact other_fields_books written _
      · exact written
    | writeError oracle weight con => cases stepped
    | recvResponse oracle weight read con =>
      rw [nothing rfl]
      rcases on_ctx_some stepped with ⟨hctx, isCtx, done⟩
      rcases map_eq_some_iff.mp done with ⟨result, isResult, rfl⟩
      exact recv_response_books books isCtx isResult
    | connectionClose con =>
      rw [nothing rfl]
      rcases on_ctx_some stepped with ⟨hctx, isCtx, done⟩
      cases done
      exact connection_close_books books isCtx
    | triggerHost oracle host =>
      rw [nothing rfl]
      cases stepped
      exact (trigger_host_upkeep oracle host).books lost books
    | waitpidCb oracle pid =>
      rw [nothing rfl]
      cases stepped
      exact (waitpid_hosts_upkeep oracle pid srv.allHosts).books lost books

def forgetful (srv : Server) : List Call → Bool
  | [] => false
  | call :: calls =>
    (forgetsProc srv call).isSome ||
      match step srv call with
      | some srv => forgetful srv calls
      | none => false

theorem run_books (books : Books srv lost) {calls : List Call} (ran : run srv calls = some after) :
    ∃ charged, Books after charged ∧
      ((∀ proc, charged proc = 0) ↔ (∀ proc, lost proc = 0) ∧ forgetful srv calls = false) := by
  induction calls generalizing srv lost with
  | nil =>
    cases ran
    exact ⟨lost, books, by simp [forgetful]⟩
  | cons call calls ih =>
    rcases bind_eq_some_iff.mp ran with ⟨next, stepped, rest⟩
    rcases ih (step_books books stepped) rest with ⟨charged, chargedBooks, zero⟩
    apply Exists.intro charged
    apply And.intro chargedBooks
    rw [zero, forgetful, stepped]
    cases isForgotten : forgetsProc srv call with
    | none => simp
    | some proc =>
      simp only [isSome_some, Bool.true_or]
      constructor
      · intro both
        have here := both.1 proc
        rw [if_pos rfl] at here
        omega
      · intro both
        cases both.2

end Steps

/-- As `gw_set_defaults_backend` leaves the hosts: no request yet, every process in one list of
one host, and the running ones counted. -/
structure Configured (srv : Server) : Prop where
  conns : ∀ slot ∈ srv.conns, slot = none
  loads : ∀ proc, (srv.procs proc).load = 0
  hostLoads : ∀ host, (srv.hosts host).load = 0
  active : ∀ host, (srv.hosts host).activeProcs = marked (Running srv) (procsOf (srv.hosts host))
  once : ∀ host, (procsOf (srv.hosts host)).Nodup
  apart : ∀ host host' proc, proc ∈ procsOf (srv.hosts host) → proc ∈ procsOf (srv.hosts host') →
    host = host'
  known : ∀ host proc, proc ∈ procsOf (srv.hosts host) → proc < srv.nextProc
  unused : ∀ host, (srv.hosts host).unusedProcs = []

theorem configured_books (configured : Configured srv) : Books srv fun _ => 0 := by
  have nothing : ∀ (ref : Option GwHandlerCtx → Option Nat), ref none = none → ∀ key,
      holders ref srv.conns key = 0 := by
    intro ref isNone key
    apply holders_of_none
    intro slot mem
    rw [configured.conns slot mem, isNone]
    exact nofun
  constructor
  · intro proc
    rw [configured.loads, nothing procOf rfl]
    rfl
  · intro host
    rw [configured.hostLoads, nothing hostOf rfl]
  · exact configured.active
  · exact configured.once
  · exact configured.apart
  · exact configured.known
  · intro host proc mem
    rw [configured.unused] at mem
    cases mem
  · exact fun proc isBusy => absurd (configured.loads proc) isBusy
  · intro slot mem proc isProc
    rw [configured.conns slot mem] at isProc
    cases isProc

/-- Every load is the number of contexts that hold it, and the active processes are the running
ones. -/
def Accounted (srv : Server) : Prop :=
  (∀ host, ∀ proc ∈ procsOf (srv.hosts host),
    (srv.procs proc).load = holders procOf srv.conns proc) ∧
  (∀ host, (srv.hosts host).load = holders hostOf srv.conns host) ∧
  (∀ host, (srv.hosts host).activeProcs = marked (Running srv) (procsOf (srv.hosts host)))

theorem accounted_iff {lost : Nat → Nat} (books : Books srv lost) :
    Accounted srv ↔ ∀ proc, lost proc = 0 := by
  constructor
  · intro accounted proc
    by_contra isLost
    have counted := books.loads proc
    have nonneg := holders_nonneg procOf srv.conns proc
    rcases books.busy proc (by omega) with ⟨host, mem⟩
    have right := accounted.1 host proc (mem_first mem)
    omega
  · intro zero
    refine ⟨?_, books.hostLoads, books.active⟩
    intro host proc _
    rw [books.loads proc, zero]
    simp

/-- The loads are right in a state that a run reaches if and only if no call of the run has
forgotten a process, and then they are zero when all requests have ended. -/
theorem loads_counted_iff {start after : Server} {calls : List Call} (configured : Configured start)
    (ran : run start calls = some after) : (Accounted after ↔ forgetful start calls = false) ∧
      (forgetful start calls = false → (∀ slot ∈ after.conns, slot = none) →
        ∀ host, (after.hosts host).load = 0 ∧
          ∀ proc ∈ procsOf (after.hosts host), (after.procs proc).load = 0) := by
  rcases run_books (configured_books configured) ran with ⟨charged, books, zero⟩
  have right : Accounted after ↔ forgetful start calls = false := by
    rw [accounted_iff books, zero]
    simp
  apply And.intro right
  intro careful ended host
  rcases right.mpr careful with ⟨loads, hostLoads, -⟩
  have nothing : ∀ (ref : Option GwHandlerCtx → Option Nat), ref none = none → ∀ key,
      holders ref after.conns key = 0 := by
    intro ref isNone key
    apply holders_of_none
    intro slot mem
    rw [ended slot mem, isNone]
    exact nofun
  constructor
  · rw [hostLoads, nothing hostOf rfl]
  · intro proc mem
    rw [loads host proc mem, nothing procOf rfl]

/-- Hosts with one running process each. -/
def hostsUp (n : Nat) : Server where
  curTs := 0
  maxWorker := 1
  procs := fun proc => if proc < n then { state := .running } else {}
  nextProc := n
  hosts := fun host => if host < n then { first := [host], activeProcs := 1, numProcs := 1 } else {}
  exts := fun _ => { hosts := range n }
  allHosts := range n
  conns := [none]
  failed := none

theorem hosts_up_configured (n : Nat) : Configured (hostsUp n) := by
  have lists : ∀ host proc, proc ∈ procsOf ((hostsUp n).hosts host) → proc = host ∧ host < n := by
    intro host proc mem
    by_cases below : host < n <;> simp [hostsUp, below, procsOf] at mem
    exact ⟨mem, below⟩
  constructor
  · intro slot mem
    exact mem_singleton.mp mem
  · intro proc
    by_cases below : proc < n <;> simp [hostsUp, below]
  · intro host
    by_cases below : host < n <;> simp [hostsUp, below]
  · intro host
    by_cases below : host < n <;> simp [hostsUp, below, procsOf, marked, Running]
  · intro host
    by_cases below : host < n <;> simp [hostsUp, below, procsOf]
  · intro host host' proc mem mem'
    exact (lists host proc mem).1.symm.trans (lists host' proc mem').1
  · intro host proc mem
    rw [(lists host proc mem).1]
    exact (lists host proc mem).2
  · intro host
    by_cases below : host < n <;> simp [hostsUp, below]

def quiet : Oracle := ⟨fun _ => .stillRunning, fun _ => .notListening, fun _ => ⟨false, .notListening⟩⟩

def plainCalls : List Call :=
  [.checkExtension quiet (fun _ => 0) .leastConnection false 0 0, .writeRequest {} 0,
    .connectionClose 0]

/-- A request that first gets no descriptor, is tried again and closed. -/
def retriedCalls : List Call :=
  [.checkExtension quiet (fun _ => 0) .leastConnection false 0 0, .writeRequest { socket := .noFd } 0,
    .writeRequest {} 0, .connectionClose 0]

theorem loads_counted_plain : ∃ after, run (hostsUp 1) plainCalls = some after ∧ Accounted after := by
  cases ran : run (hostsUp 1) plainCalls with
  | none =>
    have ends : (run (hostsUp 1) plainCalls).isSome = true := by decide
    rw [ran] at ends
    cases ends
  | some after =>
    exact ⟨after, rfl, (loads_counted_iff (hosts_up_configured 1) ran).1.mpr (by decide)⟩

/-- After the retried request has ended, its process keeps a load of one. -/
theorem load_leaks_on_retry : ((run (hostsUp 1) retriedCalls).map fun after =>
      ((after.procs 0).load, holders procOf after.conns 0, after.conns)) = some (1, 0, [none]) := by
  decide

end ServerCore.LighttpdGwBackendRuns
