import Propagation.Constraint
import Propagation.Model.Basic
import Propagation.Propagator.Sum

/-!
# Solutions

What the constraints mean. An `Assignment` gives every variable a value; a store admits it if
each live variable has a value within its domain, and a constraint holds of it or not. The
solutions of a model are the assignments that its store admits and of which all its enabled
constraints hold. Propagation takes values out of domains, and no solution with them.
-/

set_option autoImplicit false

namespace Propagation

/-- A value of a variable: an integer, a set, or a digraph. -/
inductive Value
  | int (a : Int)
  | set (members : Nat → Prop)
  | graph (nodes : Nat → Prop) (arcs : Nat → Nat → Prop)

/-- The arcs of a digraph join its own nodes. -/
def Value.IsProper : Value → Prop
  | .graph nodes arcs => ∀ i j, arcs i j → nodes i ∧ nodes j
  | _ => True

abbrev Assignment : Type := Var → Value

namespace Store

/-- The value is within the domain of `v`: between kernel and envelope for a set, and likewise for
the nodes and the arcs of a graph. -/
def Allows (s : Store) (v : Var) : Value → Prop
  | .int a => s.contains v a = .ok true
  | .set members =>
    (∀ a, s.kernelContains v a = .ok true → members a) ∧
      (∀ a, members a → s.envelopeContains v a = .ok true)
  | .graph nodes arcs =>
    (∀ i, s.nodeInKernel v i = .ok true → nodes i) ∧
      (∀ i, nodes i → s.nodeInEnvelope v i = .ok true) ∧
      (∀ i j, s.arcInKernel v i j = .ok true → arcs i j) ∧
      (∀ i j, arcs i j → s.arcInEnvelope v i j = .ok true)

/-- The value is one of the kind of `v`. -/
def Fits (s : Store) (v : Var) : Value → Prop
  | .int _ => ∃ r, s.ints v = .ok r
  | .set _ => ∃ r, s.elements v = .ok r
  | .graph _ _ => ∃ r, s.graph v = .ok r

/-- The assignment `f` gives every live variable a proper value of its kind within its domain. -/
def Admits (s : Store) (f : Assignment) : Prop :=
  ∀ v : Var, v.id < s.varCount → s.Fits v (f v) ∧ (f v).IsProper ∧ s.Allows v (f v)

end Store

namespace NotEqual

/-- Both variables of `c` are integers under `f`, and they differ. -/
def Holds (c : NotEqual) (f : Assignment) : Prop :=
  ∃ a b, f c.x = .int a ∧ f c.y = .int b ∧ a ≠ b

end NotEqual

namespace GraphChannel

/-- Under `f` there is an arc from `i` to `j` iff `j` is in the set of `i`. -/
def Holds (c : GraphChannel) (f : Assignment) : Prop :=
  ∃ nodes arcs, f c.graph = .graph nodes arcs ∧
    ∀ i set, c.sets[i]? = some set →
      ∃ members, f set = .set members ∧ ∀ j, arcs i j ↔ members j

end GraphChannel

/-- The constraint holds of the assignment. -/
def Constraint.Holds : Constraint → Assignment → Prop
  | .notEqual c => c.Holds
  | .graphChannel c => c.Holds

namespace Model

variable {ν π : Type}

/-- The constraint `c` is posted, alive and enabled in `m`, retired or not. -/
def Requires (m : Model ν (Constraint ⊕ π)) (c : Constraint) : Prop :=
  ∃ p e, m.entry p = .ok e ∧ e.propagator = .inl c ∧ e.enabled.get m.store.trail = .ok true

/-- The store of `m` admits `f`, and every enabled constraint of `m` holds of `f`. -/
def Solves (m : Model ν (Constraint ⊕ π)) (f : Assignment) : Prop :=
  m.store.Admits f ∧ ∀ c, m.Requires c → c.Holds f

end Model

end Propagation
