import Propagation.Update

/-!
# Contradictions

The author of a narrowing is its `Cause`. A narrowing that would empty a domain is answered by a
`Contradiction`, which has the variable, the cause and the reason. `Entailment` is the answer of a
constraint about the current domains.
-/

set_option autoImplicit false

namespace Propagation

/-- The author of a change: a decision of the user, or the propagator `p`. -/
inductive Cause
  | decision
  | propagator (p : PropagatorId)
deriving DecidableEq, Repr, Inhabited

/-- A value of a set, or a node or an arc of a graph. -/
inductive Element
  | value (v : Nat)
  | node (i : Nat)
  | arc (i j : Nat)
deriving DecidableEq, Repr, Inhabited

inductive Reason
  /-- The narrowing leaves no value. -/
  | wipeout
  /-- The element `e` is to be enforced and is not in the envelope. -/
  | enforceForbidden (e : Element)
  /-- The element `e` is to be removed and is in the kernel. -/
  | removeMandatory (e : Element)
  /-- The propagator called `name` reports a failure, with no narrowing refused. -/
  | detectedBy (name : String)
deriving DecidableEq, Repr

structure Contradiction where
  var? : Option Var
  cause : Cause
  reason : Reason
deriving DecidableEq, Repr

/-- The failure that the propagator `p` reports without narrowing a variable. -/
def Contradiction.detectedBy (p : PropagatorId) (name : String) : Contradiction :=
  ⟨none, .propagator p, .detectedBy name⟩

/-- Why an update of domains ends without a result. -/
inductive Failure
  | contradiction (c : Contradiction)
  | fault (f : Fault)
deriving DecidableEq, Repr

/-- An update that ends in a fault at worst, as one that may end in a contradiction too. -/
instance {σ : Type} : MonadLift (Update Fault σ) (Update Failure σ) :=
  ⟨Update.mapError .fault⟩

/-- What a constraint says about the assignments within the current domains: all of them satisfy it,
none does, or neither is known. -/
inductive Entailment
  | entailed
  | violated
  | undecided
deriving DecidableEq, Repr, Inhabited

/-! ## Texts -/

def Cause.text : Cause → String
  | .decision => "decision"
  | .propagator p => s!"propagator #{p.id}"

def Element.text : Element → String
  | .value v => s!"value {v}"
  | .node i => s!"node {i}"
  | .arc i j => s!"arc {i}->{j}"

def Reason.text : Reason → String
  | .wipeout => "domain wipe out"
  | .enforceForbidden e => s!"cannot enforce {e.text}: it is not in the envelope"
  | .removeMandatory e => s!"cannot remove {e.text}: it is in the kernel"
  | .detectedBy name => s!"failure detected by {name}"

def Contradiction.message (c : Contradiction) : String :=
  s!"contradiction ({c.cause.text}): {c.reason.text}"

end Propagation
