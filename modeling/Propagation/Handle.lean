/-!
# Handles

The names by which the rest of the library refers to things: variables (`Var`), propagators
(`PropagatorId`) and saved states (`Mark`). A handle carries no evidence that what it names is
still there; every operation that takes one checks it.
-/

set_option autoImplicit false

namespace Propagation

/-- A decision variable, by its index `id` in the store. -/
structure Var where
  id : Nat
deriving DecidableEq, Repr, Inhabited

/-- A propagator, by its index in the model. -/
structure PropagatorId where
  id : Nat
deriving DecidableEq, Repr, Inhabited

/-- A saved state: `depth` is the number of levels that were open before, and `clock` the clock of
the level that was opened. Clocks are never reused, so the pair tells two levels of one depth apart.
-/
structure Mark where
  depth : Nat
  clock : Nat
deriving DecidableEq, Repr, Inhabited

/-- The kind of a variable. -/
inductive Kind
  | int
  | set
  | graph
deriving DecidableEq, Repr, Inhabited

/-! ## Texts -/

def Var.text (v : Var) : String := s!"Variable({v.id})"

def PropagatorId.text (p : PropagatorId) : String := s!"PropagatorId({p.id})"

def Mark.text (m : Mark) : String :=
  s!"Checkpoint \x7b depth: {m.depth}, clock: {m.clock} \x7d"

/-- The text of `v` as a variable of kind `k`. -/
def Kind.textOf (k : Kind) (v : Var) : String :=
  match k with
  | .int => s!"IntVar({v.text})"
  | .set => s!"SetVar({v.text})"
  | .graph => s!"GraphVar({v.text})"

/-- The kind as a noun with its article. -/
def Kind.noun : Kind → String
  | .int => "an integer variable"
  | .set => "a set variable"
  | .graph => "a graph variable"

end Propagation
