import Propagation.Checked

/-!
# Arenas

The permutations of several sets, side by side in two arrays. A set that starts at `start` and
has `n` values owns the `n` slots from there on: slot `start + k` of `order` holds its `k`-th
value, slot `start + v` of `rank` holds the position of the value `v`. Both are relative to the
set, so a set is a prefix of its permutation and is narrowed by one `swap`.
-/

set_option autoImplicit false

namespace Propagation

structure Arena where
  order : Array Nat
  rank : Array Nat
deriving Repr, Inhabited

namespace Arena

def empty : Arena := ⟨#[], #[]⟩

/-- The number of slots in use, which is where the next set starts. -/
def size (m : Arena) : Nat := m.order.size

/-- Adds the identity on `n` values. Slots are counted by signed integers; an overflow iff there
would be too many. -/
def extend (m : Arena) (n : Nat) : Except Fault Arena := do
  let _ ← Checked.int (m.size + n)
  .ok ⟨m.order ++ Array.range n, m.rank ++ Array.range n⟩

/-- Keeps the first `n` slots. -/
def truncate (m : Arena) (n : Nat) : Arena := ⟨m.order.take n, m.rank.take n⟩

/-- The value at the given slot. -/
def value (m : Arena) (slot : Nat) : Except Fault Nat := Checked.fetch m.order slot

/-- The position of the value `v` of the set at `start`. -/
def position (m : Arena) (start v : Nat) : Except Fault Nat := Checked.fetch m.rank (start + v)

/-- The first `n` values of the set at `start`. -/
def slice (m : Arena) (start n : Nat) : Except Fault (List Nat) := do
  let stop ← Checked.nat (start + n)
  if stop ≤ m.order.size then .ok (m.order.extract start stop).toList else .error .index

/-- The array `xs` with its elements at `i` and `j` exchanged. -/
def exchange (xs : Array Nat) (i j : Nat) : Except Fault (Array Nat) := do
  let x ← Checked.fetch xs i
  let y ← Checked.fetch xs j
  .ok ((xs.setIfInBounds i y).setIfInBounds j x)

/-- Exchanges the positions of the values `a` and `b` of the set at `start`. -/
def swap (m : Arena) (start a b : Nat) : Except Fault Arena := do
  let pa ← m.position start a
  let pb ← m.position start b
  let order ← exchange m.order (start + pa) (start + pb)
  let rank ← exchange m.rank (start + a) (start + b)
  .ok ⟨order, rank⟩

/-! ## Scans -/

/-- The first of the `n` values from `v` upwards whose position in the set at `start` is below
`size`. -/
def firstWithin (m : Arena) (start size v : Nat) : Nat → Except Fault (Option Nat)
  | 0 => .ok none
  | n + 1 => do
    if (← m.position start v) < size then .ok (some v) else m.firstWithin start size (v + 1) n

/-- The last of the `n` values from `v` upwards whose position in the set at `start` is below
`size`. -/
def lastWithin (m : Arena) (start size v : Nat) : Nat → Except Fault (Option Nat)
  | 0 => .ok none
  | n + 1 => do
    if (← m.position start (v + n)) < size then .ok (some (v + n))
    else m.lastWithin start size v n

end Arena

end Propagation
