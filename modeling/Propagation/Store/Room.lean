import Propagation.Store.Basic

/-!
# Room

How often a domain can still change: every change takes at least one from its room. The room of
an integer variable is its number of values less one; that of a set or a graph is its number of
undecided elements.
-/

set_option autoImplicit false

namespace Propagation.Store

/-- The number of undecided elements of `r`. -/
def undecided (t : Trail) (r : BoundedRef) : Except Fault Nat := do
  let k ← r.kernelSize t
  let e ← r.envelopeSize t
  .ok (e - k)

/-- The room of `v`; 0 if it cannot be read. -/
def room (s : Store) (v : Var) : Nat :=
  let answer : Except Fault Nat := do
    match ← s.domain v with
    | .int values => do .ok ((← values.size s.trail) - 1)
    | .set elements => undecided s.trail elements
    | .graph nodes successors => do
      let each ← (nodes :: successors.toList).mapM (undecided s.trail)
      .ok (each.foldl (· + ·) 0)
  match answer with
  | .ok n => n
  | .error _ => 0

end Propagation.Store
