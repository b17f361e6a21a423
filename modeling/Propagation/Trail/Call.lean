import Propagation.Trail.BoundedSet
import Propagation.Trail.SparseSet

/-!
# Calls on a trail

What a user may do with a trail, as data. `Call.perform` does it; `Call.after` is the trail that a
call leaves, whether it has come back or ended in a fault: what was done before the fault stays
done. Questions are not calls, since they leave the trail as it is.
-/

set_option autoImplicit false

namespace Propagation.Trail

inductive Call
  | newInt (a : Int)
  | newBool (b : Bool)
  | newSparse (n : Nat) (offset : Int)
  | newBounded (n : Nat)
  | setInt (r : IntRef) (a : Int)
  /-- Adds `d`; increments and decrements are additions of 1 and of -1. -/
  | addInt (r : IntRef) (d : Int)
  | setBool (r : BoolRef) (b : Bool)
  | flip (r : BoolRef)
  | remove (r : SparseRef) (a : Int)
  | removeAll (r : SparseRef)
  | removeAllBut (r : SparseRef) (a : Int)
  | removeBelow (r : SparseRef) (a : Int)
  | removeAbove (r : SparseRef) (a : Int)
  | enforce (r : BoundedRef) (a : Nat)
  | exclude (r : BoundedRef) (a : Nat)
  | save
  | restore
  | checkpoint
  | rollback (m : Mark)
deriving DecidableEq, Repr

namespace Call

def perform : Call → Op Unit
  | newInt a => discard (Trail.newInt a)
  | newBool b => discard (Trail.newBool b)
  | newSparse n offset => discard (Trail.newSparse n offset)
  | newBounded n => discard (Trail.newBounded n)
  | setInt r a => discard (r.set a)
  | addInt r d => discard (r.add d)
  | setBool r b => discard (r.set b)
  | flip r => discard r.flip
  | remove r a => discard (r.remove a)
  | removeAll r => r.removeAll
  | removeAllBut r a => r.removeAllBut a
  | removeBelow r a => r.removeBelow a
  | removeAbove r a => r.removeAbove a
  | enforce r a => discard (r.enforce a)
  | exclude r a => discard (r.remove a)
  | save => modify Trail.save
  | restore => Trail.restore
  | checkpoint => modify fun t => t.checkpoint.2
  | rollback m => Trail.rollback m

end Call

end Propagation.Trail
