import Propagation.Model.Basic

/-!
# Levels of a model

Saving and restoring a model. What is on the trail comes back by itself. The rest is repaired:
propagators and variables that died lose their entries and subscriptions, and nothing stays
scheduled or waiting. Work that was left when the level was opened would be lost with it, so
`unsettled` has a flag for each level that tells whether there was any, and if so every active
propagator is scheduled for a complete filtering when the level is closed.
-/

set_option autoImplicit false

namespace Propagation.Model

variable {ν π : Type}

/-- Schedules `p` if it is active. -/
def wake (p : PropagatorId) : Op ν π Unit := do
  let e ← query fun m => Checked.fetch m.entries p.id
  if ← query (activeEntry e) then schedule p

/-- The model without entries and subscriptions of dead propagators and variables, and with nothing
scheduled. -/
def dropDead (m : Model ν π) : Model ν π :=
  let n := m.propagatorCount
  { m with
    entries := (m.entries.take n).map .idle
    subscriptions :=
      (m.subscriptions.take m.store.varCount).map (·.filter fun s => s.propagator.id < n)
    queue := m.queue.clear }

/-- Repairs the model after a level has been closed: drops what is dead, and wakes every propagator
if `unsettled`. -/
def repair (unsettled : Bool) : Op ν π Unit := do
  modify dropDead
  if unsettled then do
    let n := (← get).propagatorCount
    (List.range n).forM fun i => wake ⟨i⟩

def depth (m : Model ν π) : Nat := m.store.depth

/-- The model with one more item in `unsettled`: whether work is left now. -/
def remember (m : Model ν π) : Model ν π :=
  { m with unsettled := m.unsettled.push m.hasPendingWork }

def save (m : Model ν π) : Model ν π :=
  let m := m.remember
  { m with store := m.store.save }

def checkpoint (m : Model ν π) : Mark × Model ν π :=
  let m := m.remember
  let (mark, s) := m.store.checkpoint
  (mark, { m with store := s })

/-- Closes the innermost level. A violation, which changes nothing, iff none is open. -/
def restore : Op ν π Unit := do
  onStore Store.restore
  let m ← get
  set { m with unsettled := m.unsettled.pop }
  repair (m.unsettled.back?.getD false)

/-- Closes the level that `mark` names. A violation, which changes nothing, iff that level is no
longer open. -/
def rollback (mark : Mark) : Op ν π Unit := do
  onStore (Store.rollback mark)
  let m ← get
  set { m with unsettled := m.unsettled.take mark.depth }
  repair (m.unsettled[mark.depth]?.getD false)
  say (.rolledBack mark.depth (← get).entries.size)

end Propagation.Model
