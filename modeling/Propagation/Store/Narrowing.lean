import Propagation.Store.Basic

/-!
# Narrowings

The ways to take values out of a domain. `Store.narrow` applies one: it answers whether the
domain has changed, or with a contradiction when no value would be left. Every change leaves
events in the sink; a change of a set or a graph also leaves an entry in the log of its variable.

A graph keeps its arcs between its nodes: enforcing an arc enforces both its ends, and removing a
node removes the arcs that touch it.
-/

set_option autoImplicit false

namespace Propagation

inductive Narrowing
  /-- Keep `a` alone. -/
  | fix (a : Int)
  | remove (a : Int)
  /-- Keep the integers from `a` upwards. -/
  | removeBelow (a : Int)
  /-- Keep the integers up to `a`. -/
  | removeAbove (a : Int)
  | addToKernel (a : Nat)
  | removeFromEnvelope (a : Nat)
  | enforceNode (i : Nat)
  | removeNode (i : Nat)
  | enforceArc (i j : Nat)
  | removeArc (i j : Nat)
deriving DecidableEq, Repr

namespace Store

/-! ## What a narrowing leaves behind -/

/-- Pushes the events `m` of `v` into the sink. -/
def notify (v : Var) (m : Mask) (c : Cause) : Op Unit :=
  modify fun s => { s with sink := s.sink.pushAll v m c }

/-- Appends `e` to the log of `v`, and pushes its event into the sink. -/
def record (v : Var) (e : DeltaEntry) : Op Unit :=
  modify fun s =>
    { s with logs := s.logs.modify v.id (·.push e), sink := s.sink.push v e.event e.cause }

def refuse {α : Type} (v : Var) (c : Cause) (r : Reason) : Attempt α :=
  throw (.contradiction ⟨some v, c, r⟩)

/-- A violation iff `a` is not in the ground set of `r`, a set of the variable `v`. -/
def checkGround (s : Store) (r : BoundedRef) (a : Nat) (v : Var) : Except Fault Unit := do
  if a < (← r.capacity s.trail) then .ok () else .error (.violation (.outsideGround a v))

/-! ## Integers -/

/-- The mask `m`, with the event of the last value added if `v` has one value left. -/
def noticeFixed (v : Var) (m : Mask) : Op Mask := do
  let fixed ← query (·.isFixed v)
  pure (m.addIf fixed .instantiate)

def fix (v : Var) (a : Int) (c : Cause) : Attempt Bool := do
  if ← query (·.contains v a) then
    if ← query (·.isFixed v) then pure false
    else do
      let lo ← query (·.min v)
      let hi ← query (·.max v)
      let r ← query (·.ints v)
      onTrail (r.removeAllBut a)
      let m := Mask.ofList [.instantiate, .removal]
      notify v ((m.addIf (lo != some a) .lowerBound).addIf (hi != some a) .upperBound) c
      pure true
  else refuse v c .wipeout

def remove (v : Var) (a : Int) (c : Cause) : Attempt Bool := do
  if ← query (·.contains v a) then
    if ← query (·.isFixed v) then refuse v c .wipeout
    else do
      let lo ← query (·.min v)
      let hi ← query (·.max v)
      let r ← query (·.ints v)
      discard (onTrail (r.remove a))
      let m := Mask.only .removal
      let m ← noticeFixed v ((m.addIf (lo == some a) .lowerBound).addIf (hi == some a) .upperBound)
      notify v m c
      pure true
  else pure false

def removeBelow (v : Var) (a : Int) (c : Cause) : Attempt Bool := do
  let lo ← query (·.min v)
  let hi ← query (·.max v)
  if lo.any (a ≤ ·) then pure false
  else if hi.any (· < a) then refuse v c .wipeout
  else do
    let r ← query (·.ints v)
    onTrail (r.removeBelow a)
    notify v (← noticeFixed v (.ofList [.lowerBound, .removal])) c
    pure true

def removeAbove (v : Var) (a : Int) (c : Cause) : Attempt Bool := do
  let lo ← query (·.min v)
  let hi ← query (·.max v)
  if hi.any (· ≤ a) then pure false
  else if lo.any (a < ·) then refuse v c .wipeout
  else do
    let r ← query (·.ints v)
    onTrail (r.removeAbove a)
    notify v (← noticeFixed v (.ofList [.upperBound, .removal])) c
    pure true

/-! ## Bounded sets -/

/-- Enforces `a` in `r`, a set of the variable `v`. `before` runs once `a` is found undecided, and
`e` is the change to record. -/
def enforceIn (v : Var) (r : BoundedRef) (a : Nat) (element : Element) (before : Attempt Unit)
    (e : DeltaEntry) : Attempt Bool := do
  query (·.checkGround r a v)
  if ← query fun s => r.kernelContains a s.trail then pure false
  else if ← query fun s => r.envelopeContains a s.trail then do
    before
    discard (onTrail (r.enforce a))
    record v e
    pure true
  else refuse v e.cause (.enforceForbidden element)

/-- Removes `a` from `r`, a set of the variable `v`. `before` runs once `a` is found undecided, and
`e` is the change to record. -/
def removeIn (v : Var) (r : BoundedRef) (a : Nat) (element : Element) (before : Attempt Unit)
    (e : DeltaEntry) : Attempt Bool := do
  query (·.checkGround r a v)
  if ← query fun s => r.envelopeContains a s.trail then
    if ← query fun s => r.kernelContains a s.trail then
      refuse v e.cause (.removeMandatory element)
    else do
      before
      discard (onTrail (r.remove a))
      record v e
      pure true
  else pure false

/-! ## Sets -/

def addToKernel (v : Var) (a : Nat) (c : Cause) : Attempt Bool := do
  let r ← query (·.elements v)
  enforceIn v r a (.value a) (pure ()) ⟨.addToKernel, a, 0, c⟩

def removeFromEnvelope (v : Var) (a : Nat) (c : Cause) : Attempt Bool := do
  let r ← query (·.elements v)
  removeIn v r a (.value a) (pure ()) ⟨.removeFromEnvelope, a, 0, c⟩

/-! ## Graphs -/

def enforceNode (v : Var) (i : Nat) (c : Cause) : Attempt Bool := do
  let r ← query (·.nodes v)
  enforceIn v r i (.node i) (pure ()) ⟨.enforceNode, i, 0, c⟩

def enforceArc (v : Var) (i j : Nat) (c : Cause) : Attempt Bool := do
  let r ← query (·.successors v i)
  let ends : Attempt Unit := do
    discard (enforceNode v i c)
    discard (enforceNode v j c)
  enforceIn v r j (.arc i j) ends ⟨.enforceArc, i, j, c⟩

def removeArc (v : Var) (i j : Nat) (c : Cause) : Attempt Bool := do
  let r ← query (·.successors v i)
  removeIn v r j (.arc i j) (pure ()) ⟨.removeArc, i, j, c⟩

/-- Removes the arcs that leave or enter the node `i` of `v`. -/
def detach (v : Var) (i : Nat) (c : Cause) : Attempt Unit := do
  let leaving ← query (·.envelopeSuccessors v i)
  leaving.forM fun j => discard (removeArc v i j c)
  let n ← query (·.nodeCount v)
  (List.range n).forM fun j => discard (removeArc v j i c)

def removeNode (v : Var) (i : Nat) (c : Cause) : Attempt Bool := do
  let r ← query (·.nodes v)
  removeIn v r i (.node i) (detach v i c) ⟨.removeNode, i, 0, c⟩

/-- Applies `n` to the domain of `v`, and answers whether the domain has changed. -/
def narrow (v : Var) (n : Narrowing) (c : Cause) : Attempt Bool :=
  match n with
  | .fix a => fix v a c
  | .remove a => remove v a c
  | .removeBelow a => removeBelow v a c
  | .removeAbove a => removeAbove v a c
  | .addToKernel a => addToKernel v a c
  | .removeFromEnvelope a => removeFromEnvelope v a c
  | .enforceNode i => enforceNode v i c
  | .removeNode i => removeNode v i c
  | .enforceArc i j => enforceArc v i j c
  | .removeArc i j => removeArc v i j c

end Store

end Propagation
