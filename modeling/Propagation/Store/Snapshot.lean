import Propagation.Store.Basic

/-!
# Snapshots

The domain of a variable as a value of its own, with every part in ascending order. Two stores
that agree on the snapshot of a variable agree on its domain, however their permutations differ.
-/

set_option autoImplicit false

namespace Propagation

inductive Snapshot
  | int (values : List Int)
  | set (kernel envelope : List Nat)
  | graph (kernelNodes envelopeNodes : List Nat) (kernelArcs envelopeArcs : List (Nat × Nat))
deriving DecidableEq, Repr

namespace Store

/-- The arcs of a graph given by the successors of its nodes, from node `i` on. -/
def arcsFrom (successorsOf : BoundedRef → Except Fault (List Nat)) :
    Nat → List BoundedRef → Except Fault (List (Nat × Nat))
  | _, [] => .ok []
  | i, r :: rs => do
    let js ← successorsOf r
    let arcs ← arcsFrom successorsOf (i + 1) rs
    .ok (js.map (i, ·) ++ arcs)

def snapshot (s : Store) (v : Var) : Except Fault Snapshot := do
  match ← s.domain v with
  | .int values => do
    let as ← values.values s.trail
    .ok (.int (as.mergeSort (· ≤ ·)))
  | .set elements => do
    let kernel ← s.kernelOf elements
    let envelope ← s.envelopeOf elements
    .ok (.set kernel envelope)
  | .graph nodes successors => do
    let kernelNodes ← s.kernelOf nodes
    let envelopeNodes ← s.envelopeOf nodes
    let kernelArcs ← arcsFrom s.kernelOf 0 successors.toList
    let envelopeArcs ← arcsFrom s.envelopeOf 0 successors.toList
    .ok (.graph kernelNodes envelopeNodes kernelArcs envelopeArcs)

end Store

end Propagation
