import Propagation.Model.Trace
import Propagation.Propagator
import Propagation.Queue

/-!
# Models

A `Model` is a store with propagators on it. Each propagator has an entry; whether it is enabled,
and whether it has been found entailed, are cells of the trail, and so is the number of live
propagators. Off the trail are the subscriptions to each variable, the queue of the scheduled
propagators, and for each open level whether there was work left when it was opened.

Main definitions: `Model`, `Model.post`, `Model.enable`, `Model.disable`, `Model.status`,
`Model.isEntailed`.
-/

set_option autoImplicit false

namespace Propagation

/-- The propagator `propagator` watches a variable, under the local index `localIndex`, for the
events `mask`. -/
structure Subscription where
  propagator : PropagatorId
  localIndex : Nat
  mask : Mask
deriving DecidableEq, Repr

/-- A posted propagator. If it is `coarse`, its next run is a complete filtering; otherwise its next
run is one of the events `pending`, by local index. -/
structure Entry (π : Type) where
  propagator : π
  priority : Priority
  enabled : BoolRef
  retired : BoolRef
  coarse : Bool
  pending : List (Nat × Mask)

/-- The entry with nothing scheduled. -/
def Entry.idle {π : Type} (e : Entry π) : Entry π := { e with coarse := false, pending := [] }

/-- The entry with a complete filtering scheduled. -/
def Entry.swept {π : Type} (e : Entry π) : Entry π := { e with coarse := true, pending := [] }

/-- The state of a propagator in the engine. -/
inductive Status
  | idle
  | scheduled
  | running
deriving DecidableEq, Repr

structure Model (ν π : Type) where
  store : Store
  entries : Array (Entry π)
  /-- The cell that counts the live propagators. -/
  alive : IntRef
  /-- The subscriptions to each variable, in the order of posting. -/
  subscriptions : Array (List Subscription)
  queue : Queue
  /-- For each open level, outermost first, whether work was left when it was opened. -/
  unsettled : Array Bool
  /-- The lines and notes reported so far, oldest first. -/
  trace : Array (TraceItem ν)

namespace Model

variable {ν π : Type}

/-- An update of a model. -/
abbrev Op (ν π : Type) : Type → Type := Update Fault (Model ν π)

/-- An update of a model that may end in a contradiction. -/
abbrev Attempt (ν π : Type) : Type → Type := Update Failure (Model ν π)

def empty : Model ν π :=
  let (alive, trail) := Trail.empty.addInt 0
  { store := .ofTrail trail, entries := #[], alive, subscriptions := #[], queue := .empty,
    unsettled := #[], trace := #[] }

/-- An update that ends in a fault at worst, as one that may end in a contradiction too. -/
def lift {α : Type} (x : Op ν π α) : Attempt ν π α := x.mapError .fault

/-- The answer of `f` on the model. -/
def query {α : Type} (f : Model ν π → Except Fault α) : Op ν π α := Update.query f

/-- Runs `x` on the store. -/
def onStore {α : Type} (x : Store.Op α) : Op ν π α :=
  Update.within (·.store) (fun s m => { m with store := s }) x

def say (l : LogLine) : Op ν π Unit := modify fun m => { m with trace := m.trace.push (.line l) }

/-- The model with `notes` added to its trace. -/
def addNotes (m : Model ν π) (notes : Array ν) : Model ν π :=
  { m with trace := m.trace ++ notes.map .note }

/-! ## Entries -/

/-- The number of live propagators. -/
def propagatorCount (m : Model ν π) : Nat :=
  match m.alive.getNat m.store.trail with
  | .ok n => n
  | .error _ => 0

/-- The entry of the propagator `p`; a violation iff `p` is dead. -/
def entry (m : Model ν π) (p : PropagatorId) : Except Fault (Entry π) :=
  if p.id < m.propagatorCount then Checked.fetch m.entries p.id
  else .error (.violation (.deadPropagator p))

def mapEntry (p : PropagatorId) (f : Entry π → Entry π) : Op ν π Unit :=
  modify fun m => { m with entries := m.entries.modify p.id f }

/-- Whether the propagator of the entry `e` is enabled and not retired. -/
def activeEntry (e : Entry π) (m : Model ν π) : Except Fault Bool := do
  if ← e.enabled.get m.store.trail then do .ok !(← e.retired.get m.store.trail) else .ok false

def isActive (m : Model ν π) (p : PropagatorId) : Except Fault Bool := do
  activeEntry (← m.entry p) m

/-- Puts `p` into the queue, behind the others of its class. -/
def enqueue (p : PropagatorId) : Op ν π Unit := do
  let e ← query fun m => Checked.fetch m.entries p.id
  modify fun m => { m with queue := m.queue.enqueue p e.priority }

/-- Schedules a complete filtering of `p`, which covers its pending events. -/
def schedule (p : PropagatorId) : Op ν π Unit := do
  discard (query fun m => Checked.fetch m.entries p.id)
  mapEntry p .swept
  enqueue p

/-- Whether propagators are scheduled or events wait. -/
def hasPendingWork (m : Model ν π) : Bool := !m.queue.isEmpty || m.store.hasEvents

/-- Whether `p` is running, scheduled or neither; `idle` also if there is no such propagator. -/
def status (m : Model ν π) (p : PropagatorId) : Status :=
  if m.store.running = some p then .running
  else if m.queue.contains p then .scheduled
  else .idle

/-! ## Posting -/

/-- The rows of the first `n` variables, with empty rows added up to that number. -/
def resize (rows : Array (List Subscription)) (n : Nat) : Array (List Subscription) :=
  rows.take n ++ Array.replicate (n - rows.size) []

/-- Adds `s` to the row of `v`; an index fault iff there is no such row. -/
def subscribe (v : Var) (s : Subscription) : Op ν π Unit := do
  discard (query fun m => Checked.fetch m.subscriptions v.id)
  modify fun m => { m with subscriptions := m.subscriptions.modify v.id (· ++ [s]) }

/-- Adds the subscriptions of `p` to the listed variables, with local indices from `i` on. -/
def subscribeAll (p : PropagatorId) : Nat → List (Var × Mask) → Op ν π Unit
  | _, [] => pure ()
  | i, (v, mask) :: rest => do
    subscribe v ⟨p, i, mask⟩
    subscribeAll p (i + 1) rest

/-- Runs `x` on the trail. -/
def onTrail {α : Type} (x : Trail.Op α) : Op ν π α := onStore (Store.onTrail x)

/-- Adds the entry and the flags of `p`, and schedules its complete filtering. -/
def enlist [Propagator ν π] (p : PropagatorId) (setup : Setup ν π) : Op ν π Unit := do
  let enabled ← onTrail (Trail.newBool true)
  let retired ← onTrail (Trail.newBool false)
  let priority := Propagator.priority ν setup.propagator
  say (.posted (Propagator.name ν setup.propagator) p priority)
  modify fun m =>
    { m with entries := m.entries.push
              { propagator := setup.propagator, priority, enabled, retired, coarse := false,
                pending := [] } }
  let m ← get
  discard (onTrail m.alive.increment)
  schedule p

/-- Adds a propagator: initialises it, subscribes it and enlists it. -/
def post [Propagator ν π] (propagator : π) : Op ν π PropagatorId := do
  let m ← get
  let p : PropagatorId := ⟨m.propagatorCount⟩
  set { m with entries := m.entries.take p.id }
  let setup : Setup ν π ← query fun m => Propagator.initialise propagator p m.store
  modify fun m =>
    { m.addNotes setup.notes.toArray with
      subscriptions := resize m.subscriptions m.store.varCount }
  subscribeAll p 0 setup.watches
  enlist p setup
  pure p

/-! ## Control -/

/-- Sets the flag of `p` and schedules a complete filtering. -/
def enable (p : PropagatorId) : Op ν π Unit := do
  let e ← query (·.entry p)
  discard (onTrail (e.enabled.set true))
  schedule p

/-- Clears the flag of `p`. -/
def disable (p : PropagatorId) : Op ν π Unit := do
  let e ← query (·.entry p)
  discard (onTrail (e.enabled.set false))
  mapEntry p fun e => { e with pending := [] }

/-- Entailed if `p` is retired, or else the propagator's own answer. -/
def isEntailed [Propagator ν π] (m : Model ν π) (p : PropagatorId) : Except Fault Entailment := do
  let e ← m.entry p
  if ← e.retired.get m.store.trail then .ok .entailed
  else Propagator.entailment ν e.propagator m.store

end Model

end Propagation
