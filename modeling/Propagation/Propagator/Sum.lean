import Propagation.Propagator

/-!
# Propagators of several types

A model has propagators of one type. Two types of propagators are one, their sum: each propagator
of the sum does what it does in its own type.
-/

set_option autoImplicit false

namespace Propagation.Propagator

variable {ν π ρ α : Type}

/-- The action `x` of the left type as one of the sum; `c` stands in where the propagator is of the
right type. -/
def onLeft (c : π) (x : Action ν π α) : Action ν (π ⊕ ρ) α :=
  x.zoom (fun | .inl c => c | .inr _ => c) (fun c _ => .inl c)

/-- The action `x` of the right type as one of the sum; `c` stands in where the propagator is of the
left type. -/
def onRight (c : ρ) (x : Action ν ρ α) : Action ν (π ⊕ ρ) α :=
  x.zoom (fun | .inr c => c | .inl _ => c) (fun c _ => .inr c)

instance [Propagator ν π] [Propagator ν ρ] : Propagator ν (π ⊕ ρ) where
  name
    | .inl c => name ν c
    | .inr c => name ν c
  priority
    | .inl c => priority ν c
    | .inr c => priority ν c
  initialise
    | .inl c, p, s => do
      let u : Setup ν π ← initialise c p s
      .ok { propagator := .inl u.propagator, watches := u.watches, notes := u.notes }
    | .inr c, p, s => do
      let u : Setup ν ρ ← initialise c p s
      .ok { propagator := .inr u.propagator, watches := u.watches, notes := u.notes }
  propagate := do
    match ← Action.state with
    | .inl c => onLeft c propagate
    | .inr c => onRight c propagate
  propagateOn i m := do
    match ← Action.state with
    | .inl c => onLeft c (propagateOn i m)
    | .inr c => onRight c (propagateOn i m)
  entailment
    | .inl c, s => entailment ν c s
    | .inr c, s => entailment ν c s

end Propagation.Propagator
