import Propagation.Contradiction
import Propagation.Event

/-!
# The event sink

Events wait in a `Sink` until they are dispatched. An event joins the entry before it when both
are of one variable and one cause, so that a narrowing that produces several events leaves one
entry.
-/

set_option autoImplicit false

namespace Propagation

/-- The events `mask` of the variable `var`, by the same `cause`. -/
structure PendingEvent where
  var : Var
  mask : Mask
  cause : Cause
deriving DecidableEq, Repr

/-- The entries that wait, newest first. -/
structure Sink where
  newest : List PendingEvent
deriving DecidableEq, Repr

namespace Sink

def empty : Sink := ⟨[]⟩

def isEmpty (s : Sink) : Bool := s.newest.isEmpty

/-- The entries that wait, oldest first. -/
def toList (s : Sink) : List PendingEvent := s.newest.reverse

def push (s : Sink) (v : Var) (e : Event) (c : Cause) : Sink :=
  match s.newest with
  | last :: rest =>
    if last.var = v ∧ last.cause = c then
      ⟨{ last with mask := last.mask ∪ .only e } :: rest⟩
    else ⟨⟨v, .only e, c⟩ :: last :: rest⟩
  | [] => ⟨[⟨v, .only e, c⟩]⟩

/-- Pushes every event of `m`, in the order of declaration. -/
def pushAll (s : Sink) (v : Var) (m : Mask) (c : Cause) : Sink :=
  m.toList.foldl (fun s e => s.push v e c) s

end Sink

end Propagation
