import Propagation.Delta.Monitor
import Propagation.Propagator

/-!
# Channelling between a graph and sets

A graph variable and one set variable for each of its nodes: there is an arc from `i` to `j` iff
`j` is in the set of `i`. Kernels and envelopes are copied both ways. A complete filtering
compares all of both sides; otherwise only the changes in the logs are carried over, which the
propagator reads by a monitor for each set and one more, the last, for the graph.
-/

set_option autoImplicit false

namespace Propagation

/-- The channel between `graph` and `sets`, the set of node `i` at position `i`. Before it is
posted, `monitors` is empty and `cause` is `.decision`. -/
structure GraphChannel where
  graph : Var
  sets : Array Var
  monitors : Array Monitor
  cause : Cause
deriving DecidableEq, Repr

namespace GraphChannel

/-- The channel as it is before it is posted. -/
def of (graph : Var) (sets : List Var) : GraphChannel := ⟨graph, sets.toArray, #[], .decision⟩

/-- The pairs `(i, s)` of a node and its set. -/
def rows (c : GraphChannel) : List (Nat × Var) := c.sets.toList.zipIdx.map fun (s, i) => (i, s)

variable {ν : Type}

/-! ## Complete filtering -/

/-- Removes `j` from the set of node `i` unless the arc from `i` to `j` is in the envelope of the
graph. -/
def trimSet (c : GraphChannel) {σ : Type} (i : Nat) (set : Var) (j : Nat) : Action ν σ Unit := do
  if ← Action.query (·.arcInEnvelope c.graph i j) then pure ()
  else discard (Action.apply set (.removeFromEnvelope j) c.cause)

/-- Removes the arc from `i` to `j` unless `j` is in the envelope of the set of `i`. -/
def trimGraph (c : GraphChannel) {σ : Type} (i : Nat) (set : Var) (j : Nat) : Action ν σ Unit := do
  if ← Action.query (·.envelopeContains set j) then pure ()
  else discard (Action.apply c.graph (.removeArc i j) c.cause)

/-- Copies the kernels and the envelopes of `set` and of the successors of node `i` both ways. -/
def sweepRow (c : GraphChannel) {σ : Type} (i : Nat) (set : Var) : Action ν σ Unit := do
  let required ← Action.query (·.kernelValues set)
  required.forM fun j => discard (Action.apply c.graph (.enforceArc i j) c.cause)
  let enforced ← Action.query (·.kernelSuccessors c.graph i)
  enforced.forM fun j => discard (Action.apply set (.addToKernel j) c.cause)
  let possible ← Action.query (·.envelopeValues set)
  possible.forM (c.trimSet i set)
  let allowed ← Action.query (·.envelopeSuccessors c.graph i)
  allowed.forM (c.trimGraph i set)

/-! ## Monitors -/

/-- Runs `x` on the monitor at position `k`; an index fault iff there is none. -/
def onMonitor (k : Nat) (x : Update Fault Monitor Unit) : Update Fault GraphChannel Unit := fun c =>
  match c.monitors[k]? with
  | none => .error .index c
  | some m =>
    match x m with
    | .ok () m => .ok () { c with monitors := c.monitors.setIfInBounds k m }
    | .error e m => .error e { c with monitors := c.monitors.setIfInBounds k m }

/-- Freezes and unfreezes a monitor, so that its log counts as drained. -/
def skip (s : Store) : Update Fault Monitor Unit := do
  Monitor.freeze s
  Monitor.unfreeze

/-- Copies the changes of the set of node `i`, from its log, into the graph. -/
def drainSet (c : GraphChannel) (i : Nat) : Action ν GraphChannel Unit := do
  let m ← Action.query fun _ => Checked.fetch c.monitors i
  m.drain .addToKernel fun e =>
    discard (Action.apply c.graph (.enforceArc i e.first) c.cause)
  m.drain .removeFromEnvelope fun e =>
    discard (Action.apply c.graph (.removeArc i e.first) c.cause)

/-- The set of node `i`; an index fault iff there is none. -/
def setOf (c : GraphChannel) (i : Nat) : Action ν GraphChannel Var :=
  Action.query fun _ => Checked.fetch c.sets i

/-- Copies the changes of the graph, from its log, into the sets. -/
def drainGraph (c : GraphChannel) : Action ν GraphChannel Unit := do
  let m ← Action.query fun _ => Checked.fetch c.monitors c.sets.size
  m.drain .enforceArc fun e => do
    let set ← c.setOf e.first
    discard (Action.apply set (.addToKernel e.second) c.cause)
  m.drain .removeArc fun e => do
    let set ← c.setOf e.first
    discard (Action.apply set (.removeFromEnvelope e.second) c.cause)

/-! ## Entailment -/

/-- Whether `test` fails on some member of the list; stops at the first. -/
def anyFails (test : Nat → Except Fault Bool) : List Nat → Except Fault Bool
  | [] => .ok false
  | j :: js => do if ← test j then anyFails test js else .ok true

/-- Whether, for a row `(i, set)` of the list, one side has an element in its kernel that is not in
the envelope of the other. -/
def clash (c : GraphChannel) (s : Store) : List (Nat × Var) → Except Fault Bool
  | [] => .ok false
  | (i, set) :: rest => do
    if ← anyFails (s.arcInEnvelope c.graph i) (← s.kernelValues set) then .ok true
    else if ← anyFails (s.envelopeContains set) (← s.kernelSuccessors c.graph i) then .ok true
    else clash c s rest

/-- Whether every variable of the list is instantiated; stops at the first that is not. -/
def allInstantiated (s : Store) : List Var → Except Fault Bool
  | [] => .ok true
  | v :: vs => do if ← s.isInstantiated v then allInstantiated s vs else .ok false

/-- Violated iff `clash` finds a row; otherwise entailed iff the graph and all sets are
instantiated. -/
def entailment (c : GraphChannel) (s : Store) : Except Fault Entailment := do
  if ← clash c s c.rows then .ok .violated
  else if ← allInstantiated s (c.graph :: c.sets.toList) then .ok .entailed
  else .ok .undecided

/-- Sets up the monitors and the watched variables; a violation iff the numbers of sets and of nodes
differ. -/
def initialise (c : GraphChannel) (p : PropagatorId) (s : Store) :
    Except Fault (Setup ν GraphChannel) := do
  let n ← s.nodeCount c.graph
  if c.sets.size = n then
    let watched := c.sets.push c.graph
    .ok
      { propagator :=
          { c with cause := .propagator p, monitors := watched.map (Monitor.fresh · p) }
        watches :=
          c.sets.toList.map (·, .ofList [.addToKernel, .removeFromEnvelope]) ++
            [(c.graph, .ofList [.enforceArc, .removeArc])]
        notes := [] }
  else .error (.violation (.channelArity c.sets.size n))

/-- Sweeps all rows, then skips the logs of all monitors. -/
def propagate : Action ν GraphChannel Unit := do
  let c ← Action.state
  c.rows.forM fun (i, set) => c.sweepRow i set
  (List.range c.monitors.size).forM fun k => Action.update fun s => onMonitor k (skip s)

/-- Drains the monitor with local index `k`, of a set or of the graph (the last one), and unfreezes
it, also after a contradiction. -/
def propagateOn (k : Nat) : Action ν GraphChannel Unit := do
  Action.update fun s => onMonitor k (Monitor.freeze s)
  let c ← Action.state
  let result ← (if k < c.sets.size then c.drainSet k else c.drainGraph).attempt
  Action.update fun _ => onMonitor k Monitor.unfreeze
  match result with
  | .ok () => pure ()
  | .error x => .fail (.contradiction x)

instance : Propagator ν GraphChannel where
  name _ := "GraphChannel"
  priority _ := .linear
  initialise := initialise
  propagate := propagate
  propagateOn k _ := propagateOn k
  entailment := entailment

end GraphChannel

end Propagation
