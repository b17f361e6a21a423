import Propagation.Action
import Propagation.Priority

/-!
# Propagators

The interface between the engine and a constraint. A type `π` of propagators is also the state
that its actions keep: a propagator that is run reads and changes itself by `Action.state` and
`Action.update`. `ν` is the type of its notes in the trace.
-/

set_option autoImplicit false

namespace Propagation

/-- What a propagator answers when it is posted: itself as it will run (`propagator`), and the
variables that it watches, each with a mask. A position in `watches` is a local index. -/
structure Setup (ν π : Type) where
  propagator : π
  watches : List (Var × Mask)
  notes : List ν

class Propagator (ν π : Type) where
  name : π → String
  priority : π → Priority
  /-- Prepares a propagator that is posted under the given identity. -/
  initialise : π → PropagatorId → Store → Except Fault (Setup ν π)
  /-- The complete filtering. -/
  propagate : Action ν π Unit
  /-- The filtering after the given events of the variable with the given local index. -/
  propagateOn : Nat → Mask → Action ν π Unit := fun _ _ => propagate
  entailment : π → Store → Except Fault Entailment

end Propagation
