import Propagation.Model.Basic
import Propagation.Store.Room

/-!
# Propagation to a fixpoint

The engine alternates between handing the waiting events to the propagators that watch them and
running the propagator at the head of the queue, until the queue is empty or a contradiction
comes up. A propagator is not woken up by its own changes, nor while it is not active; one that
is found entailed after a run is retired until the level is closed.

Every run after those that are scheduled to begin with is due to a change, and a change takes room
from a domain, so `Model.budget` bounds the number of runs.

Main definitions: `Model.dispatch`, `Model.execute`, `Model.fixpoint`.
-/

set_option autoImplicit false

namespace Propagation

variable {ν π : Type}

/-! ## Dispatching -/

/-- The list with `m` joined to the mask of the local index `i`, which goes last if it is new. -/
def joinPending (i : Nat) (m : Mask) : List (Nat × Mask) → List (Nat × Mask)
  | [] => [(i, m)]
  | (j, n) :: rest => if j = i then (j, n ∪ m) :: rest else (j, n) :: joinPending i m rest

/-- Adds the events `m` of the local index `i` to the entry, unless it is `coarse`. -/
def Entry.addPending (i : Nat) (m : Mask) (e : Entry π) : Entry π :=
  if e.coarse then e else { e with pending := joinPending i m e.pending }

namespace Model

/-- Gives the events of `event` that `s` watches to its entry and schedules it, unless the
propagator is the cause, no event is watched, or the propagator is not active. -/
def notify (event : PendingEvent) (s : Subscription) : Op ν π Unit := do
  if event.cause = .propagator s.propagator then pure ()
  else do
    let hits := event.mask ∩ s.mask
    if hits.isEmpty then pure ()
    else do
      let e ← query fun m => Checked.fetch m.entries s.propagator.id
      if ← query (activeEntry e) then do
        mapEntry s.propagator (Entry.addPending s.localIndex hits)
        enqueue s.propagator

/-- Runs `notify` on every subscription to the variable of `event`. -/
def notifyAll (event : PendingEvent) : Op ν π Unit := do
  let m ← get
  (m.subscriptions[event.var.id]?.getD []).forM (notify event)

/-- Runs `notifyAll` on every entry of the sink, oldest first, and empties the sink. -/
def dispatch : Op ν π Unit := do
  let m ← get
  m.store.sink.toList.forM notifyAll
  modify fun m => { m with store := m.store.clearEvents }

/-! ## Running a propagator -/

/-- Runs the action `x` of the propagator `p`, whose `own` state is the propagator itself. -/
def act {α : Type} (p : PropagatorId) (x : Action ν π α) : Attempt ν π α := fun m =>
  match m.entries[p.id]? with
  | none => .error (.fault .index) m
  | some e =>
    let back (w : Workspace ν π) : Model ν π :=
      { m.addNotes w.notes with
        store := w.store
        entries := m.entries.setIfInBounds p.id { e with propagator := w.own } }
    match x.run { store := m.store, own := e.propagator, notes := #[] } with
    | .ok a w => .ok a (back w)
    | .error e w => .error e (back w)

/-- The model with `p` as the running propagator, or none. -/
def withRunning (m : Model ν π) (p : Option PropagatorId) : Model ν π :=
  { m with store := { m.store with running := p } }

/-- Runs `x` with `p` as the running propagator. After a fault `p` stays the running one. -/
def asRunning {α : Type} (p : PropagatorId) (x : Attempt ν π α) : Attempt ν π α := fun m =>
  match x (m.withRunning (some p)) with
  | .ok a m => .ok a (m.withRunning none)
  | .error (.contradiction c) m => .error (.contradiction c) (m.withRunning none)
  | .error (.fault f) m => .error (.fault f) m

variable [Propagator ν π]

/-- Runs the complete filtering of `p`, or that of its pending events, as its entry `e` says. -/
def filter (p : PropagatorId) (e : Entry π) : Attempt ν π Unit := do
  lift (mapEntry p .idle)
  let name := Propagator.name ν e.propagator
  if e.coarse then do
    lift (say (.swept name p))
    act p Propagator.propagate
  else do
    lift (say (.woken name p e.pending))
    act p (e.pending.forM fun (i, m) => Propagator.propagateOn i m)

/-- Retires `p` if its answer is that it is entailed. -/
def retire (p : PropagatorId) : Op ν π Unit := do
  let e ← query fun m => Checked.fetch m.entries p.id
  let answer ← query fun m => Propagator.entailment ν e.propagator m.store
  if answer = .entailed then do
    say (.retired (Propagator.name ν e.propagator) p)
    discard (onTrail (e.retired.set true))

/-- Runs the propagator `p` that has left the queue. If it is not active, its entry only becomes
idle. -/
def execute (p : PropagatorId) : Attempt ν π Unit := do
  let e ← lift (query fun m => Checked.fetch m.entries p.id)
  if ← lift (query (activeEntry e)) then do
    asRunning p (filter p e)
    lift (retire p)
  else lift (mapEntry p .idle)

/-! ## The loop -/

/-- The number of propagators that a call of `fixpoint` may run: each live one once, and one more
for each subscription and each change that the domain of its variable has room for. -/
def budget (m : Model ν π) : Nat :=
  let wakeUps (v : Nat) := (m.subscriptions[v]?.getD []).length * m.store.room ⟨v⟩
  (List.range m.store.varCount).foldl (fun n v => n + wakeUps v) m.entries.size

/-- Dispatches, and takes the head of the queue. -/
def next : Op ν π (Option PropagatorId) := do
  dispatch
  let m ← get
  match m.queue.pop with
  | none => pure none
  | some (p, queue) => do
    set { m with queue }
    pure (some p)

/-- Dispatches and executes until the queue is empty; an `exhausted` fault iff that takes more than
`n` executions. -/
def settle : Nat → Attempt ν π Unit
  | 0 => do if (← lift next).isSome then throw (.fault .exhausted)
  | n + 1 => do
    match ← lift next with
    | none => pure ()
    | some p => do
      execute p
      settle n

/-- The model with nothing scheduled and no event waiting. -/
def abandon (m : Model ν π) : Model ν π :=
  { m with
    queue := m.queue.clear
    entries := m.entries.map .idle
    store := m.store.clearEvents }

/-- The model with the line `l` reported and all logs cleared. -/
def finish (m : Model ν π) (l : LogLine) : Model ν π :=
  { m with trace := m.trace.push (.line l), store := m.store.clearDeltas }

/-- Runs the scheduled propagators and those that get scheduled meanwhile, until nothing is
scheduled and no event waits. After a contradiction the work that is left is abandoned. Either way
the logs are cleared; a fault leaves everything as it is. -/
def fixpoint : Attempt ν π Unit := fun m =>
  match settle m.budget m with
  | .ok () m => .ok () (m.finish .settled)
  | .error (.contradiction c) m => .error (.contradiction c) (m.abandon.finish (.failed c))
  | .error (.fault f) m => .error (.fault f) m

end Model

end Propagation
