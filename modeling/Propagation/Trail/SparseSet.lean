import Propagation.Trail.Basic

/-!
# Sparse sets

A set of integers that starts as an interval and only loses values. Its members are the first
`size` values of a permutation: a removal swaps the value behind that frontier and moves the
frontier down, so it is undone by restoring the size alone. The least and the greatest member
are kept beside it and repaired by a scan when they go; both are meaningless in an empty set.
-/

set_option autoImplicit false

namespace Propagation

/-- Creates the set of the `n` integers from `offset` upwards. -/
def Trail.newSparse (n : Nat) (offset : Int) : Trail.Op SparseRef := do
  let t ← get
  let arena ← Update.query fun t => t.sparseArena.extend n
  modify fun t => { t with sparseArena := arena }
  let size ← newInt n
  let least ← newInt 0
  let greatest ← newInt (n - 1)
  modify fun u =>
    { u with sparseSets := u.sparseSets.push
              { offset, start := t.sparseArena.size, capacity := n, size, least, greatest } }
  pure ⟨t.sparseSets.size⟩

namespace SparseRef

/-- The record of where the set is kept. -/
def layout (r : SparseRef) (t : Trail) : Except Fault SparseSet :=
  Checked.fetch t.sparseSets r.index

/-! ## Queries -/

def size (r : SparseRef) (t : Trail) : Except Fault Nat := do
  let s ← r.layout t
  s.size.getNat t

def isEmpty (r : SparseRef) (t : Trail) : Except Fault Bool := do
  let n ← r.size t
  .ok (n == 0)

/-- The bound that `which` selects, or `none` if the set is empty. -/
def bound (r : SparseRef) (which : SparseSet → IntRef) (t : Trail) :
    Except Fault (Option Int) := do
  let s ← r.layout t
  if (← s.size.get t) ≤ 0 then .ok none
  else do
    let b ← (which s).get t
    let a ← Checked.int (b + s.offset)
    .ok (some a)

def min (r : SparseRef) (t : Trail) : Except Fault (Option Int) := r.bound (·.least) t

def max (r : SparseRef) (t : Trail) : Except Fault (Option Int) := r.bound (·.greatest) t

def contains (r : SparseRef) (a : Int) (t : Trail) : Except Fault Bool := do
  let s ← r.layout t
  let v ← Checked.int (a - s.offset)
  if v < 0 ∨ s.capacity ≤ v then .ok false
  else do
    let n ← s.size.getNat t
    let k ← t.sparseArena.position s.start v.toNat
    .ok (k < n)

/-- The members, in the order of the permutation. -/
def values (r : SparseRef) (t : Trail) : Except Fault (List Int) := do
  let s ← r.layout t
  let n ← s.size.getNat t
  let vs ← t.sparseArena.slice s.start n
  vs.mapM fun (v : Nat) => Checked.int (v + s.offset)

/-! ## Narrowing -/

/-- Exchanges the positions of the values `v` and `w`. -/
def swap (s : SparseSet) (v w : Nat) : Trail.Op Unit := do
  let m ← Update.query fun t => t.sparseArena.swap s.start v w
  modify fun t => { t with sparseArena := m }

/-- Repairs the bounds after `v` has been removed and `size` values are left. -/
def tighten (s : SparseSet) (v size : Nat) : Trail.Op Unit := do
  let lo ← Update.query s.least.getNat
  let hi ← Update.query s.greatest.getNat
  if v = lo then do
    let w ← Update.query fun t => t.sparseArena.firstWithin s.start size (lo + 1) (hi - lo)
    discard (s.least.set (Checked.toSigned (w.getD hi)))
  if v = hi then do
    let w ← Update.query fun t => t.sparseArena.lastWithin s.start size lo (hi - lo)
    discard (s.greatest.set (Checked.toSigned (w.getD lo)))

/-- Removes `a`, and answers whether it was there. -/
def remove (r : SparseRef) (a : Int) : Trail.Op Bool := do
  if ← Update.query (r.contains a) then do
    let s ← Update.query r.layout
    let v := (a - s.offset).toNat
    let n ← Update.query s.size.getNat
    let last ← Update.query fun _ => Checked.sub n 1
    let slot ← Update.query fun _ => Checked.nat (s.start + last)
    let w ← Update.query fun t => t.sparseArena.value slot
    swap s v w
    let left ← s.size.decrement
    if Checked.toUnsigned left > 0 then tighten s v (Checked.toUnsigned left)
    pure true
  else pure false

def removeAll (r : SparseRef) : Trail.Op Unit := do
  let s ← Update.query r.layout
  discard (s.size.set 0)

/-- Keeps `a` alone if it is in the set, and nothing otherwise. -/
def removeAllBut (r : SparseRef) (a : Int) : Trail.Op Unit := do
  if ← Update.query (r.contains a) then do
    let s ← Update.query r.layout
    let v := (a - s.offset).toNat
    let w ← Update.query fun t => t.sparseArena.value s.start
    swap s v w
    discard (s.size.set 1)
    discard (s.least.set v)
    discard (s.greatest.set v)
  else r.removeAll

/-- Removes the `n` integers from `x + offset` upwards, in ascending order. -/
def removeAscending (r : SparseRef) (offset x : Int) : Nat → Trail.Op Unit
  | 0 => pure ()
  | n + 1 => do
    let a ← Update.query fun _ => Checked.int (x + offset)
    discard (r.remove a)
    r.removeAscending offset (x + 1) n

/-- Removes the `n` integers from `x + offset` downwards, in descending order. -/
def removeDescending (r : SparseRef) (offset x : Int) : Nat → Trail.Op Unit
  | 0 => pure ()
  | n + 1 => do
    let a ← Update.query fun _ => Checked.int (x + offset)
    discard (r.remove a)
    r.removeDescending offset (x - 1) n

/-- Keeps the values from `a` upwards. -/
def removeBelow (r : SparseRef) (a : Int) : Trail.Op Unit := do
  let s ← Update.query r.layout
  if ← Update.query r.isEmpty then pure ()
  else do
    let v ← Update.query fun _ => Checked.int (a - s.offset)
    let lo ← Update.query s.least.get
    let hi ← Update.query s.greatest.get
    if v > hi then r.removeAll else r.removeAscending s.offset lo (v - lo).toNat

/-- Keeps the values up to `a`. -/
def removeAbove (r : SparseRef) (a : Int) : Trail.Op Unit := do
  let s ← Update.query r.layout
  if ← Update.query r.isEmpty then pure ()
  else do
    let v ← Update.query fun _ => Checked.int (a - s.offset)
    let lo ← Update.query s.least.get
    let hi ← Update.query s.greatest.get
    if v < lo then r.removeAll
    else do
      let first ← Update.query fun _ => Checked.int (v + 1)
      r.removeDescending s.offset hi (hi + 1 - first).toNat

end SparseRef

end Propagation
