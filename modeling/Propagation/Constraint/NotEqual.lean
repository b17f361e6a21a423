import Propagation.Propagator

/-!
# Disequality

Two integer variables take different values. Nothing can be filtered before one of them is fixed;
then its value is removed from the other.
-/

set_option autoImplicit false

namespace Propagation

/-- The constraint `x ≠ y`. Its narrowings have the cause `cause`: its own identity once it is
posted. -/
structure NotEqual where
  x : Var
  y : Var
  cause : Cause
deriving DecidableEq, Repr

namespace NotEqual

/-- The disequality as it is before it is posted. -/
def of (x y : Var) : NotEqual := ⟨x, y, .decision⟩

variable {ν σ : Type}

/-- Removes the value of `fixed` from `other` if `fixed` has one value left. -/
def forbid (fixed other : Var) (c : Cause) : Action ν σ Unit := do
  let isFixed ← Action.query (·.isFixed fixed)
  let least ← Action.query (·.min fixed)
  match isFixed, least with
  | true, some a => discard (Action.apply other (.remove a) c)
  | _, _ => pure ()

/-- Whether one of the `n` integers from `a` upwards is a value of both `x` and `y`. -/
def meets (s : Store) (x y : Var) (a : Int) : Nat → Except Fault Bool
  | 0 => .ok false
  | n + 1 => do
    let both ← if ← s.contains x a then s.contains y a else .ok false
    if both then .ok true else meets s x y (a + 1) n

/-- Whether `x` and `y` have a value in common. -/
def overlap (s : Store) (x y : Var) : Except Fault Bool := do
  let least ← s.min x
  let greatest ← s.max x
  match least, greatest with
  | some lo, some hi => meets s x y lo (hi + 1 - lo).toNat
  | _, _ => .ok false

/-- Entailed iff no value is shared; violated iff one is and both variables are fixed. -/
def entailment (c : NotEqual) (s : Store) : Except Fault Entailment := do
  if ← overlap s c.x c.y then do
    let both ← if ← s.isFixed c.x then s.isFixed c.y else .ok false
    .ok (if both then .violated else .undecided)
  else .ok .entailed

instance : Propagator ν NotEqual where
  name _ := "NotEqualVar"
  priority _ := .binary
  initialise c p _ :=
    .ok { propagator := { c with cause := .propagator p }
          watches := [(c.x, .only .instantiate), (c.y, .only .instantiate)]
          notes := [] }
  propagate := do
    let c ← Action.state
    forbid c.x c.y c.cause
    forbid c.y c.x c.cause
  propagateOn i _ := do
    let c ← Action.state
    if i = 0 then forbid c.x c.y c.cause else forbid c.y c.x c.cause
  entailment := entailment

end NotEqual

end Propagation
