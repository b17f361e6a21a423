import Propagation.Checked
import Propagation.Contradiction
import Propagation.Event

/-!
# Delta logs

The changes of a set or graph variable, in the order in which they happened. Integer variables
have a log too, which stays empty.
-/

set_option autoImplicit false

namespace Propagation

/-- One change of one element: the value or the node `first` (`second` is 0), or the arc from
`first` to `second`. -/
structure DeltaEntry where
  event : Event
  first : Nat
  second : Nat
  cause : Cause
deriving DecidableEq, Repr

/-- The changes `entries`, oldest first. -/
structure DeltaLog where
  entries : Array DeltaEntry
deriving DecidableEq, Repr, Inhabited

namespace DeltaLog

def empty : DeltaLog := ⟨#[]⟩

def size (l : DeltaLog) : Nat := l.entries.size

def isEmpty (l : DeltaLog) : Bool := l.entries.isEmpty

def push (l : DeltaLog) (e : DeltaEntry) : DeltaLog := ⟨l.entries.push e⟩

def entry (l : DeltaLog) (i : Nat) : Except Fault DeltaEntry := Checked.fetch l.entries i

def toList (l : DeltaLog) : List DeltaEntry := l.entries.toList

@[simp] theorem toList_empty : empty.toList = [] := rfl

@[simp] theorem toList_push (l : DeltaLog) (e : DeltaEntry) :
    (l.push e).toList = l.toList ++ [e] := by
  simp [toList, push]

end DeltaLog

end Propagation
