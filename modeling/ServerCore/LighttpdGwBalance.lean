import Mathlib.Data.Int.ConditionallyCompleteOrder
import ServerCore.FirstMaximum
import ServerCore.LighttpdGwBackendRuns
import ServerCore.TurnTaking

/-!
# The host that is chosen

The loops over the hosts find the first of the best, and the round-robin search
goes through them in a circle. A load is below `INT_MAX`, where `least-connection`
would find nothing, since it counts connections.
-/

namespace ServerCore.LighttpdGwBalance

open LighttpdGwBackend LighttpdGwBackendLoad LighttpdGwBackendRuns HolderCount FirstMaximum TurnTaking List

variable {ext : GwExtension} {weight : Nat → Nat}

/-- What the checksums of a request are taken of. -/
structure Request where
  path : List UInt8
  authority : List UInt8
  dstAddr : List UInt8

def isActive (srv : Server) (ext : GwExtension) (k : Nat) : Bool :=
  (srv.hosts (ext.hosts.getD k 0)).activeProcs ≠ 0

/-- The indexes of the hosts that are up. -/
def up (srv : Server) (ext : GwExtension) : List Nat :=
  (range ext.hosts.length).filter (isActive srv ext)

end ServerCore.LighttpdGwBalance
