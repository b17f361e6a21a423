import Propagation.Store.Narrowing
import Propagation.Trail.Call

/-!
# Calls on a store

What a user may do with a store, as data: with its variables, its events, its levels, and with the
trail under it. `Call.perform` does it.
-/

set_option autoImplicit false

namespace Propagation.Store

inductive Call
  | create (d : Shape)
  | narrow (v : Var) (n : Narrowing) (c : Cause)
  | clearEvents
  | clearDeltas
  | setRunning (p : Option PropagatorId)
  | save
  | restore
  | checkpoint
  | rollback (m : Mark)
  /-- A call on the trail of the store. -/
  | trail (c : Trail.Call)
deriving DecidableEq, Repr

namespace Call

def perform : Call → Attempt Unit
  | create d => do
    let _ ← Store.create d
    pure ()
  | narrow v n c => discard (Store.narrow v n c)
  | clearEvents => modify Store.clearEvents
  | clearDeltas => modify Store.clearDeltas
  | setRunning p => modify fun s => { s with running := p }
  | save => modify Store.save
  | restore => Store.restore
  | checkpoint => modify fun s => s.checkpoint.2
  | rollback m => Store.rollback m
  | trail c => onTrail c.perform

end Call

end Propagation.Store
