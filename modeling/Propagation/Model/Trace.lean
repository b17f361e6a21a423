import Propagation.Contradiction
import Propagation.Event
import Propagation.Priority

/-!
# Traces

What a model reports while it works: lines of its own (`LogLine`) and the notes of its
propagators, in the order in which they came up.
-/

set_option autoImplicit false

namespace Propagation

inductive LogLine
  | posted (name : String) (p : PropagatorId) (priority : Priority)
  | rolledBack (depth propagators : Nat)
  | failed (c : Contradiction)
  | settled
  /-- A complete filtering of `p`. -/
  | swept (name : String) (p : PropagatorId)
  /-- A filtering of the events `pending` of `p`, by local index. -/
  | woken (name : String) (p : PropagatorId) (pending : List (Nat × Mask))
  | retired (name : String) (p : PropagatorId)
deriving DecidableEq, Repr

/-- The text of pending events, by local index. -/
def pendingText (pending : List (Nat × Mask)) : String :=
  "[" ++ ", ".intercalate (pending.map fun (i, m) => s!"({i}, {m.text})") ++ "]"

def LogLine.text : LogLine → String
  | posted name p c => s!"DEBUG: post {name} as {p.text} ({c.name})"
  | rolledBack d n => s!"DEBUG: rolled back to depth {d} ({n} propagators alive)"
  | failed c => s!"DEBUG: propagation failed: {c.message}"
  | settled => "TRACE: fixpoint reached"
  | swept name p => s!"TRACE: propagate {name} ({p.text})"
  | woken name p pending => s!"TRACE: propagate {name} ({p.text}) on {pendingText pending}"
  | retired name p => s!"TRACE: {name} ({p.text}) is entailed"

inductive TraceItem (ν : Type)
  | line (l : LogLine)
  | note (x : ν)

end Propagation
