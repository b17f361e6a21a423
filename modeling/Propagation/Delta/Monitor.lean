import Propagation.Action

/-!
# Delta monitors

A `Monitor` is a propagator's position in the log of a variable. The propagator freezes it,
drains what the log held at that time, and unfreezes it; entries that are appended meanwhile wait
for the next cycle. Entries that the owner has caused itself are passed over. When the logs have
been cleared since, the next freeze starts at the beginning of the new log.
-/

set_option autoImplicit false

namespace Propagation

structure Monitor where
  var : Var
  owner : PropagatorId
  /-- The epoch that `drained` refers to; `none` before the first freeze. -/
  epoch : Option Nat
  /-- The number of entries that have been dealt with. -/
  drained : Nat
  /-- While the monitor is frozen, the length of the log that the cycle drains up to. -/
  frozen : Option Nat
deriving DecidableEq, Repr

namespace Monitor

/-- The monitor of `v` before its first cycle. -/
def fresh (v : Var) (owner : PropagatorId) : Monitor := ⟨v, owner, none, 0, none⟩

def isFrozen (m : Monitor) : Bool := m.frozen.isSome

/-- The monitor at `epoch`: `drained` is 0 if the logs have been cleared since the last freeze. -/
def resync (m : Monitor) (epoch : Nat) : Monitor :=
  if m.epoch = some epoch then m else { m with epoch := some epoch, drained := 0 }

/-- Sets `frozen` to the length of the log. A violation iff it is set already or the variable is
dead. -/
def freeze (s : Store) : Update Fault Monitor Unit := do
  let m ← get
  if m.isFrozen then throw (.violation (.frozenTwice m.var))
  else do
    set (m.resync s.epoch)
    let log ← Update.query fun m => s.delta m.var
    modify fun m => { m with frozen := some log.size }

/-- Ends the cycle: `drained` becomes what `frozen` was. A violation iff `frozen` is not set. -/
def unfreeze : Update Fault Monitor Unit := do
  let m ← get
  match m.frozen with
  | some stop => set { m with drained := stop, frozen := none }
  | none => throw (.violation (.unfrozenBeforeFreeze m.var))

variable {ν σ : Type}

/-- Runs `f` on those of the `n` entries from position `i` on that are of the event `e` and not
caused by `m.owner`. -/
def deliver (m : Monitor) (e : Event) (f : DeltaEntry → Action ν σ Unit) (i : Nat) :
    Nat → Action ν σ Unit
  | 0 => pure ()
  | n + 1 => do
    let x ← Action.query fun s => do (← s.delta m.var).entry i
    if x.event = e ∧ x.cause ≠ .propagator m.owner then f x
    m.deliver e f (i + 1) n

/-- Runs `f` on the entries up to `frozen` that are of the event `e`, in the order of the log. -/
def drain (m : Monitor) (e : Event) (f : DeltaEntry → Action ν σ Unit) : Action ν σ Unit :=
  match m.frozen with
  | none => .fail (.fault (.violation (.drainedBeforeFreeze m.var)))
  | some stop =>
    .look fun s =>
      if m.epoch = some s.epoch then m.deliver e f m.drained (stop - m.drained)
      else .fail (.fault (.violation (.clearedWhileFrozen m.var)))

end Monitor

end Propagation
