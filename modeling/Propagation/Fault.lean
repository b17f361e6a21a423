import Propagation.Handle

/-!
# Faults

What ends a call without an answer. A `Violation` is a broken contract, with a text that names
it; a `Fault` is a violation, a read outside of an array, an integer that leaves the 64-bit
range, or a propagation that ran out of its budget. A contradiction between constraints is not a
fault: it is an answer (`Propagation.Contradiction`).
-/

set_option autoImplicit false

namespace Propagation

/-- The contracts of the library, each with the values that its text names. -/
inductive Violation
  /-- A restore while no level is open. -/
  | noOpenLevel
  /-- A rollback to the mark of a level that has been closed. -/
  | staleMark (mark : Mark)
  /-- An `enforce` of a value outside of the envelope of a bounded set. -/
  | outsideEnvelope (value : Nat)
  /-- A `remove` of a value in the kernel of a bounded set. -/
  | insideKernel (value : Nat)
  /-- An integer variable with a lower bound above its upper bound. -/
  | emptyRange
  | deadVar (v : Var)
  | deadPropagator (p : PropagatorId)
  /-- A variable used as one of the kind `expected`, which it is not of. -/
  | wrongKind (expected : Kind) (v : Var)
  | noNode (graph : Var) (node : Nat)
  | outsideGround (value : Nat) (v : Var)
  /-- A second freeze of a monitor of `v` without an unfreeze between. -/
  | frozenTwice (v : Var)
  | unfrozenBeforeFreeze (v : Var)
  | drainedBeforeFreeze (v : Var)
  /-- A drain of a monitor of `v` whose log was cleared since the freeze. -/
  | clearedWhileFrozen (v : Var)
  /-- A channel posted with `sets` sets on a graph with `nodes` nodes. -/
  | channelArity (sets nodes : Nat)
deriving DecidableEq, Repr

def Violation.message : Violation → String
  | .noOpenLevel => "cannot pop above the root level of the state manager"
  | .staleMark m => s!"rollback to a checkpoint that is no longer live: {m.text}"
  | .outsideEnvelope a => s!"cannot enforce {a}: it does not belong to the envelope"
  | .insideKernel a => s!"cannot remove {a}: it belongs to the kernel"
  | .emptyRange => "cannot create an empty integer variable"
  | .deadVar v => s!"{v.text} is no longer alive"
  | .deadPropagator p => s!"{p.text} is no longer alive"
  | .wrongKind k v => s!"{k.textOf v} is not {k.noun}"
  | .noNode g i => s!"{Kind.graph.textOf g} has no node {i}"
  | .outsideGround a v => s!"{a} is not in the ground set of {v.text}"
  | .frozenTwice v => s!"delta monitor of {v.text} frozen twice"
  | .unfrozenBeforeFreeze v => s!"delta monitor of {v.text} unfrozen without freeze"
  | .drainedBeforeFreeze v => s!"delta monitor of {v.text} drained without freeze"
  | .clearedWhileFrozen v =>
    s!"delta log of {v.text} cleared while its monitor was frozen"
  | .channelArity sets nodes =>
    "assertion `left == right` failed: there must be exactly one set per node of the graph" ++
      s!"\n  left: {sets}\n right: {nodes}"

inductive Fault
  | violation (v : Violation)
  /-- A read at a position outside of its array. -/
  | index
  /-- A result outside of the 64-bit range. -/
  | overflow
  /-- A propagation that has run more propagators than `Model.budget` allows. -/
  | exhausted
deriving DecidableEq, Repr

end Propagation
