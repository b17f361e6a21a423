import Propagation.Delta.Log
import Propagation.Event.Sink
import Propagation.Trail.BoundedSet
import Propagation.Trail.SparseSet

/-!
# The domain store

A `Store` keeps the domains of the variables on a trail, and beside them, off the trail, the log
of each variable and the sink of events. How many variables are alive is a cell of the trail, so
a variable dies when the level in which it was created is closed; its slot stays behind until
another variable takes it.

Logs are cleared together. Each clearing starts a new epoch, by which a monitor can tell that its
position in a log is void.

Main definitions: `Store`, `Store.create`, the queries, and the operations on levels.
-/

set_option autoImplicit false

namespace Propagation

/-- Where the domain of a variable is kept. A graph has a set of `nodes` and, for each node, the set
of its `successors`. -/
inductive Domain
  | int (values : SparseRef)
  | set (elements : BoundedRef)
  | graph (nodes : BoundedRef) (successors : Array BoundedRef)
deriving Repr, Inhabited

/-- The domains that a fresh variable may have. -/
inductive Shape
  /-- The integers from `lo` to `hi`. -/
  | interval (lo hi : Int)
  /-- The subsets of `0, …, n - 1`. -/
  | subsets (n : Nat)
  /-- The digraphs on the nodes `0, …, n - 1`. -/
  | digraphs (n : Nat)
deriving DecidableEq, Repr

structure Store where
  trail : Trail
  /-- The cell that counts the live variables. -/
  alive : IntRef
  domains : Array Domain
  logs : Array DeltaLog
  epoch : Nat
  sink : Sink
  /-- The propagator that is being run. -/
  running : Option PropagatorId

namespace Store

/-- An update of a store. -/
abbrev Op : Type → Type := Update Fault Store

/-- An update of a store that may end in a contradiction. -/
abbrev Attempt : Type → Type := Update Failure Store

/-- The answer of `f` on the store. -/
def query {α : Type} (f : Store → Except Fault α) : Op α := Update.query f

/-- Runs `x` on the trail. -/
def onTrail {α : Type} (x : Trail.Op α) : Op α :=
  Update.within (·.trail) (fun t s => { s with trail := t }) x

/-- The store without variables on the trail `t`. -/
def ofTrail (t : Trail) : Store :=
  let (alive, trail) := t.addInt 0
  { trail, alive, domains := #[], logs := #[], epoch := 0, sink := .empty, running := none }

def empty : Store := ofTrail .empty

/-! ## Variables -/

/-- The number of live variables. -/
def varCount (s : Store) : Nat :=
  match s.alive.getNat s.trail with
  | .ok n => n
  | .error _ => 0

/-- A violation iff `v` is dead. -/
def checkAlive (s : Store) (v : Var) : Except Fault Unit :=
  if v.id < s.varCount then .ok () else .error (.violation (.deadVar v))

def domain (s : Store) (v : Var) : Except Fault Domain := do
  s.checkAlive v
  Checked.fetch s.domains v.id

/-- The changes of `v` since the logs were last cleared. -/
def delta (s : Store) (v : Var) : Except Fault DeltaLog := do
  s.checkAlive v
  Checked.fetch s.logs v.id

/-- The values of the integer variable `v`; a violation iff `v` is of another kind. -/
def ints (s : Store) (v : Var) : Except Fault SparseRef := do
  match ← s.domain v with
  | .int values => .ok values
  | _ => .error (.violation (.wrongKind .int v))

/-- The elements of the set variable `v`; a violation iff `v` is of another kind. -/
def elements (s : Store) (v : Var) : Except Fault BoundedRef := do
  match ← s.domain v with
  | .set elements => .ok elements
  | _ => .error (.violation (.wrongKind .set v))

/-- The nodes of the graph variable `v` and their successors; a violation iff `v` is of another
kind. -/
def graph (s : Store) (v : Var) : Except Fault (BoundedRef × Array BoundedRef) := do
  match ← s.domain v with
  | .graph nodes successors => .ok (nodes, successors)
  | _ => .error (.violation (.wrongKind .graph v))

def nodes (s : Store) (v : Var) : Except Fault BoundedRef := do
  let (nodes, _) ← s.graph v
  .ok nodes

/-- The successors of the node `i` of `v`; a violation iff there is no such node. -/
def successors (s : Store) (v : Var) (i : Nat) : Except Fault BoundedRef := do
  let (_, successors) ← s.graph v
  match successors[i]? with
  | some r => .ok r
  | none => .error (.violation (.noNode v i))

/-- Gives the next index to a new variable with the domain `d` and an empty log. What dead variables
have left behind from that index on is dropped. -/
def register (d : Domain) : Op Var := do
  let s ← get
  let n := s.varCount
  set { s with domains := (s.domains.take n).push d, logs := (s.logs.take n).push .empty }
  discard (onTrail s.alive.increment)
  pure ⟨n⟩

/-- Creates a bounded set of `n` values for each of the given number of rows. -/
def newRows (n : Nat) : Nat → Trail.Op (Array BoundedRef)
  | 0 => pure #[]
  | k + 1 => do
    let rows ← newRows n k
    let r ← Trail.newBounded n
    pure (rows.push r)

/-- Creates a variable. A violation iff its shape is an interval without values, an overflow iff the
interval has more than `2 ^ 63 - 1` of them. -/
def create : Shape → Op Var
  | .interval lo hi =>
    if lo ≤ hi then do
      let n ← query fun _ => Checked.int (hi - lo + 1)
      let r ← onTrail (Trail.newSparse n.toNat lo)
      register (.int r)
    else throw (.violation .emptyRange)
  | .subsets n => do
    let r ← onTrail (Trail.newBounded n)
    register (.set r)
  | .digraphs n => do
    let nodes ← onTrail (Trail.newBounded n)
    let rows ← onTrail (newRows n n)
    register (.graph nodes rows)

/-! ## Integer variables -/

def min (s : Store) (v : Var) : Except Fault (Option Int) := do (← s.ints v).min s.trail

def max (s : Store) (v : Var) : Except Fault (Option Int) := do (← s.ints v).max s.trail

def size (s : Store) (v : Var) : Except Fault Nat := do (← s.ints v).size s.trail

def contains (s : Store) (v : Var) (a : Int) : Except Fault Bool := do
  (← s.ints v).contains a s.trail

/-- Whether `v` has one value left. -/
def isFixed (s : Store) (v : Var) : Except Fault Bool := do
  let n ← s.size v
  .ok (n == 1)

/-! ## Set variables -/

def groundSize (s : Store) (v : Var) : Except Fault Nat := do
  (← s.elements v).capacity s.trail

def kernelSize (s : Store) (v : Var) : Except Fault Nat := do
  (← s.elements v).kernelSize s.trail

def envelopeSize (s : Store) (v : Var) : Except Fault Nat := do
  (← s.elements v).envelopeSize s.trail

def kernelContains (s : Store) (v : Var) (a : Nat) : Except Fault Bool := do
  (← s.elements v).kernelContains a s.trail

def envelopeContains (s : Store) (v : Var) (a : Nat) : Except Fault Bool := do
  (← s.elements v).envelopeContains a s.trail

/-- The numbers `ns` in ascending order. -/
def ascending (ns : List Nat) : List Nat := ns.mergeSort (· ≤ ·)

/-- The kernel of `r`, in ascending order. -/
def kernelOf (s : Store) (r : BoundedRef) : Except Fault (List Nat) := do
  .ok (ascending (← r.kernel s.trail))

/-- The envelope of `r`, in ascending order. -/
def envelopeOf (s : Store) (r : BoundedRef) : Except Fault (List Nat) := do
  .ok (ascending (← r.envelope s.trail))

def kernelValues (s : Store) (v : Var) : Except Fault (List Nat) := do
  s.kernelOf (← s.elements v)

def envelopeValues (s : Store) (v : Var) : Except Fault (List Nat) := do
  s.envelopeOf (← s.elements v)

/-! ## Graph variables -/

def nodeCount (s : Store) (v : Var) : Except Fault Nat := do
  let (_, successors) ← s.graph v
  .ok successors.size

def nodeInKernel (s : Store) (v : Var) (i : Nat) : Except Fault Bool := do
  (← s.nodes v).kernelContains i s.trail

def nodeInEnvelope (s : Store) (v : Var) (i : Nat) : Except Fault Bool := do
  (← s.nodes v).envelopeContains i s.trail

def arcInKernel (s : Store) (v : Var) (i j : Nat) : Except Fault Bool := do
  if i < (← s.nodeCount v) then (← s.successors v i).kernelContains j s.trail else .ok false

def arcInEnvelope (s : Store) (v : Var) (i j : Nat) : Except Fault Bool := do
  if i < (← s.nodeCount v) then (← s.successors v i).envelopeContains j s.trail else .ok false

def kernelNodes (s : Store) (v : Var) : Except Fault (List Nat) := do s.kernelOf (← s.nodes v)

def envelopeNodes (s : Store) (v : Var) : Except Fault (List Nat) := do
  s.envelopeOf (← s.nodes v)

def kernelSuccessors (s : Store) (v : Var) (i : Nat) : Except Fault (List Nat) := do
  s.kernelOf (← s.successors v i)

def envelopeSuccessors (s : Store) (v : Var) (i : Nat) : Except Fault (List Nat) := do
  s.envelopeOf (← s.successors v i)

/-! ## Any variable -/

/-- Whether every set of the list is instantiated; stops at the first that is not. -/
def allInstantiated (t : Trail) : List BoundedRef → Except Fault Bool
  | [] => .ok true
  | r :: rs => do if ← r.isInstantiated t then allInstantiated t rs else .ok false

/-- Whether the domain of `v` has one value left. -/
def isInstantiated (s : Store) (v : Var) : Except Fault Bool := do
  match ← s.domain v with
  | .int values => do .ok ((← values.size s.trail) == 1)
  | .set elements => elements.isInstantiated s.trail
  | .graph nodes successors => allInstantiated s.trail (nodes :: successors.toList)

/-! ## Events and logs -/

def hasEvents (s : Store) : Bool := !s.sink.isEmpty

def clearEvents (s : Store) : Store := { s with sink := .empty }

/-- The store with every log empty, at a new epoch. -/
def clearDeltas (s : Store) : Store :=
  { s with logs := s.logs.map fun _ => .empty, epoch := s.epoch + 1 }

/-- The store without waiting events and with every log empty. -/
def forgetChanges (s : Store) : Store := s.clearEvents.clearDeltas

/-! ## Levels -/

def depth (s : Store) : Nat := s.trail.depth

def save (s : Store) : Store := { s with trail := s.trail.save }

def checkpoint (s : Store) : Mark × Store :=
  let (m, t) := s.trail.checkpoint
  (m, { s with trail := t })

/-- Closes the innermost level. A violation, which changes nothing, iff none is open. -/
def restore : Op Unit := do
  onTrail Trail.restore
  modify forgetChanges

/-- Closes the level that `m` names. A violation, which changes nothing, iff that level is no longer
open. -/
def rollback (m : Mark) : Op Unit := do
  onTrail (Trail.rollback m)
  modify forgetChanges

end Store

end Propagation
