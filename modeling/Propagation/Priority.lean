/-!
# Priorities

How costly a propagator is to run, cheapest class first.
-/

set_option autoImplicit false

namespace Propagation

inductive Priority
  | unary
  | binary
  | ternary
  | linear
  | quadratic
  | cubic
  | verySlow
deriving DecidableEq, Repr, Inhabited

namespace Priority

/-- All classes, cheapest first. -/
def all : List Priority := [unary, binary, ternary, linear, quadratic, cubic, verySlow]

/-- The number of classes. -/
def count : Nat := 7

def index : Priority → Nat
  | unary => 0
  | binary => 1
  | ternary => 2
  | linear => 3
  | quadratic => 4
  | cubic => 5
  | verySlow => 6

def name : Priority → String
  | unary => "Unary"
  | binary => "Binary"
  | ternary => "Ternary"
  | linear => "Linear"
  | quadratic => "Quadratic"
  | cubic => "Cubic"
  | verySlow => "VerySlow"

instance : Ord Priority := ⟨fun a b => compare a.index b.index⟩

theorem index_lt (a : Priority) : a.index < count := by cases a <;> decide

theorem index_inj {a b : Priority} (h : a.index = b.index) : a = b := by
  cases a <;> cases b <;> first | rfl | exact absurd h (by decide)

/-- The position of the class in `all`. -/
def slot (a : Priority) : Fin count := ⟨a.index, a.index_lt⟩

theorem mem_all (a : Priority) : a ∈ all := by cases a <;> decide

end Priority

end Propagation
