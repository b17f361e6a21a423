import Propagation.Constraint.GraphChannel
import Propagation.Constraint.NotEqual

/-!
# Constraints

The constraints of the library as one type of propagators, for models that post several kinds.
-/

set_option autoImplicit false

namespace Propagation

inductive Constraint
  | notEqual (c : NotEqual)
  | graphChannel (c : GraphChannel)
deriving DecidableEq, Repr

namespace Constraint

variable {ν α : Type}

/-- The action `x` of a disequality as one of a `Constraint`; `c` stands in where the constraint is
of another kind. -/
def onNotEqual (c : NotEqual) (x : Action ν NotEqual α) : Action ν Constraint α :=
  x.zoom (fun | .notEqual c => c | _ => c) (fun c _ => .notEqual c)

/-- The action `x` of a channel as one of a `Constraint`; `c` stands in where the constraint is of
another kind. -/
def onGraphChannel (c : GraphChannel) (x : Action ν GraphChannel α) : Action ν Constraint α :=
  x.zoom (fun | .graphChannel c => c | _ => c) (fun c _ => .graphChannel c)

instance : Propagator ν Constraint where
  name
    | .notEqual c => Propagator.name ν c
    | .graphChannel c => Propagator.name ν c
  priority
    | .notEqual c => Propagator.priority ν c
    | .graphChannel c => Propagator.priority ν c
  initialise
    | .notEqual c, p, s => do
      let u : Setup ν NotEqual ← Propagator.initialise c p s
      .ok { propagator := .notEqual u.propagator, watches := u.watches, notes := u.notes }
    | .graphChannel c, p, s => do
      let u : Setup ν GraphChannel ← Propagator.initialise c p s
      .ok { propagator := .graphChannel u.propagator, watches := u.watches, notes := u.notes }
  propagate := do
    match ← Action.state with
    | .notEqual c => onNotEqual c Propagator.propagate
    | .graphChannel c => onGraphChannel c Propagator.propagate
  propagateOn i m := do
    match ← Action.state with
    | .notEqual c => onNotEqual c (Propagator.propagateOn i m)
    | .graphChannel c => onGraphChannel c (Propagator.propagateOn i m)
  entailment
    | .notEqual c, s => Propagator.entailment ν c s
    | .graphChannel c, s => Propagator.entailment ν c s

end Constraint

end Propagation
